import SystemsProgramming.ParallelRunner.Proofs.DeadlockProofs

/-!
# Proofs: the text printed for a command

There is one `read` for each child, after its end, when its whole output is in the pipe. It gets what
`buffer` has room for; a terminator is left in the buffer only if it does not fill it.
-/

namespace SystemsProgramming.ParallelRunner

open Foundations

variable {cfg : Setup} {s s' : State} {a : Action}

/-! ## What is read -/

/-- Each tag is printed with the first bytes of the output of its command. -/
def ReadOnce (cfg : Setup) (s : State) : Prop :=
  ∀ p ∈ s.printed, p.2 = (cfg.output p.1).take BUFFER

/-- When the parent reads from a pipe, all that the child has written is in it. -/
theorem pipe_of_reading {k i : Nat} (hinv : Inv cfg s) (hbooks : Books cfg s i)
    (hparent : s.parent = .reading k i) : (s.children i).pipe = cfg.output i := by
  have hcollected : s.collected = s.tags ++ [i] := by rw [State.collected, hparent]
  have hreaped : (s.children i).status = .reaped := by
    rw [hinv.reaped, hcollected]
    simp
  have hnot : i ∉ s.tags := by
    intro hmem
    have hnodup := hinv.nodup
    rw [hcollected] at hnodup
    exact (List.nodup_append.1 hnodup).2.2 i hmem i (by simp) rfl
  have hwhole := hbooks.whole hnot
  rwa [(hbooks.done (Or.inr hreaped)).1, List.flatten_nil, List.append_nil] at hwhole

theorem ReadOnce.step (hinv : Inv cfg s) (hbooks : ∀ c, Books cfg s c) (h : ReadOnce cfg s)
    (hstep : ParallelRunner.step cfg s a = some s') : ReadOnce cfg s' := by
  cases step_iff.1 hstep with
  | fork | write | exit | wait | waitFails => exact h
  | @read k i hparent =>
    intro p hp
    rcases List.mem_append.1 hp with hp | hp
    · exact h p hp
    · obtain rfl := List.mem_singleton.1 hp
      rw [pipe_of_reading hinv (hbooks i) hparent]

theorem Reached.readOnce (h : Reached cfg s) : ReadOnce cfg s := by
  refine (h.invariant (I := fun s => (Inv cfg s ∧ ∀ c, Books cfg s c) ∧ ReadOnce cfg s)
    ⟨⟨inv_initial cfg, books_initial cfg⟩, by simp [ReadOnce, initial]⟩ fun _ _ _ hI hstep => ?_).2
  exact ⟨⟨hI.1.1.step hstep, Books.step hI.1.1 hI.1.2 hstep⟩, ReadOnce.step hI.1.1 hI.1.2 hI.2 hstep⟩

/-- A command whose output fits into its pipe gets its tag printed in some run. -/
theorem exists_tag {c : Nat} (hc : c < launched cfg) (hfits : (cfg.output c).length ≤ cfg.capacity) :
    ∃ s, Reached cfg s ∧ c ∈ s.tags := by
  obtain ⟨s, hreached, hreturned | houtside | ⟨⟨k, hwaiting⟩, -, hblocked⟩⟩ := exists_reached_stuck cfg
  · exact ⟨s, hreached, hreached.inv.reaped_at_end (Or.inl hreturned) hc⟩
  · exact ⟨s, hreached, hreached.inv.reaped_at_end (Or.inr houtside) hc⟩
  · -- the children that are left wait for room in their pipes, and this one has it
    obtain ⟨-, -, hborn, hcollected⟩ := hreached.inv.of_waiting hwaiting
    have hunborn := (hreached.inv.born c).2 (hborn ▸ hc)
    have huse : ¬ (s.children c).status.InUse :=
      fun huse => hreached.not_blocked hfits (hblocked c huse)
    have hreaped : (s.children c).status = .reaped := by
      unfold Status.InUse at huse
      cases hs : (s.children c).status <;> simp_all
    refine ⟨s, hreached, ?_⟩
    rwa [hreached.inv.reaped, hcollected] at hreaped

/-! ## What is printed -/

/-- The string behind a tag is terminated in `buffer`, and is the whole output of the command,
whatever lies behind the buffer. -/
def Complete (cfg : Setup) (p : Nat × List UInt8) : Prop :=
  0 ∈ buffer p.2 ∧ ∀ behind, printedText p.2 behind = cfg.output p.1

/-- The beginning of an output is complete when it does not fill the buffer. -/
theorem complete_take_iff {c : Nat} (hzero : 0 ∉ cfg.output c) :
    Complete cfg (c, (cfg.output c).take BUFFER) ↔ (cfg.output c).length < BUFFER := by
  constructor
  · rintro ⟨hmem, -⟩
    by_contra hlong
    have hfull : BUFFER - ((cfg.output c).take BUFFER).length = 0 := by
      rw [List.length_take]
      omega
    rw [buffer, hfull, List.replicate_zero, List.append_nil] at hmem
    exact hzero (List.mem_of_mem_take hmem)
  · intro hshort
    have htake : (cfg.output c).take BUFFER = cfg.output c :=
      List.take_of_length_le (Nat.le_of_lt hshort)
    obtain ⟨n, hn⟩ := Nat.exists_eq_add_of_lt hshort
    have hbuffer : buffer (cfg.output c) = cfg.output c ++ 0 :: List.replicate n 0 := by
      rw [buffer, ← List.replicate_succ, hn]
      congr 2
      omega
    refine ⟨?_, fun behind => ?_⟩
    · rw [htake, hbuffer]
      simp
    · rw [printedText, htake, hbuffer, List.append_assoc, List.cons_append, cString_append_zero hzero]

/-- An output that fits into a pipe is printed in some run, so it is not printed whole if it fills the
buffer. -/
theorem length_lt_of_complete {c : Nat} (hc : c < launched cfg) (hzero : 0 ∉ cfg.output c)
    (hfits : (cfg.output c).length ≤ cfg.capacity)
    (h : ∀ s, Reached cfg s → ∀ p ∈ s.printed, Complete cfg p) : (cfg.output c).length < BUFFER := by
  obtain ⟨s, hreached, htag⟩ := exists_tag hc hfits
  obtain ⟨p, hp, rfl⟩ := List.mem_map.1 htag
  have hcomplete := h s hreached p hp
  rw [← Prod.eta p, hreached.readOnce p hp] at hcomplete
  exact (complete_take_iff hzero).1 hcomplete

/-- For commands that write no zero bytes, every text that is printed is the whole output of the command
it is tagged with, and terminated in the buffer, if and only if no output that fits into a pipe fills the
buffer. -/
theorem prints_whole_output_iff (cfg : Setup) (hzero : ∀ c < launched cfg, 0 ∉ cfg.output c) :
    (∀ s, Reached cfg s → ∀ p ∈ s.printed, Complete cfg p) ↔
      ∀ c < launched cfg, (cfg.output c).length ≤ cfg.capacity → (cfg.output c).length < BUFFER := by
  constructor
  · intro h c hc hfits
    exact length_lt_of_complete hc (hzero c hc) hfits h
  · intro h s hreached p hp
    have htag : p.1 ∈ s.tags := List.mem_map_of_mem hp
    have hreaped := (hreached.inv.reaped p.1).2 (List.mem_append_left _ htag)
    have hc : p.1 < launched cfg := hreached.inv.lt_launched (by rw [hreaped]; decide)
    have hfits := ((hreached.books p.1).done (Or.inr hreaped)).2
    rw [← Prod.eta p, hreached.readOnce p hp]
    exact (complete_take_iff (hzero p.1 hc)).2 (h p.1 hc hfits)

/-- Two commands that write a line each, the second one in two pieces. -/
def twoLines : Setup where
  commands := 2
  writes c := if c = 0 then [ascii "a\n"] else [ascii "b", ascii "c\n"]
  capacity := 65536
  pipeBuf := 4096

theorem twoLines_complete : launched twoLines = 2 ∧
    ∀ s, Reached twoLines s → ∀ p ∈ s.printed, Complete twoLines p := by
  have hall : ∀ c < launched twoLines,
      0 ∉ twoLines.output c ∧ (twoLines.output c).length < BUFFER := by decide
  refine ⟨rfl, ?_⟩
  exact (prints_whole_output_iff twoLines fun c hc => (hall c hc).1).2 fun c hc _ => (hall c hc).2

/-- One command that writes 1024 bytes fills the buffer. -/
theorem full_buffer_unterminated : ¬ ∀ cfg : Setup, cfg.commands ≤ MAX →
    (∀ c < launched cfg, 0 ∉ cfg.output c) →
    ∀ s, Reached cfg s → ∀ p ∈ s.printed, Complete cfg p := by
  intro h
  have hout : ∀ c, Setup.output ⟨1, fun _ => [List.replicate 1024 120], 65536, 4096⟩ c =
      List.replicate 1024 120 := fun c => List.flatten_singleton
  have hzero : ∀ c < launched ⟨1, fun _ => [List.replicate 1024 120], 65536, 4096⟩,
      0 ∉ Setup.output ⟨1, fun _ => [List.replicate 1024 120], 65536, 4096⟩ c := by
    intro c _ hmem
    rw [hout] at hmem
    exact absurd (List.eq_of_mem_replicate hmem) (by decide)
  have hfits : (Setup.output ⟨1, fun _ => [List.replicate 1024 120], 65536, 4096⟩ 0).length ≤ 65536 := by
    rw [hout, List.length_replicate]
    decide
  have hlt := length_lt_of_complete (by decide) (hzero 0 (by decide)) hfits (h _ (by decide) hzero)
  rw [hout, List.length_replicate] at hlt
  exact absurd hlt (by decide)

end SystemsProgramming.ParallelRunner
