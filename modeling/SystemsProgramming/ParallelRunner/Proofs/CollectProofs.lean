import SystemsProgramming.ParallelRunner.Proofs.DeadlockProofs

/-!
# Proofs: every launched command is reported once

The fork loop stops after `MAX` rounds and the collect loop after as many as there are commands. With
more than `MAX` commands the round after the last child finds no process id, and the search for it
leaves the array.
-/

namespace SystemsProgramming.ParallelRunner

open Foundations

variable {cfg : Setup} {s : State}

/-- Every round so far has selected a child of its own, `main` has stayed inside its arrays, and at its
end every launched child has been selected. -/
structure Reports (cfg : Setup) (s : State) : Prop where
  inside : s.parent ≠ .outside
  valid : ∀ c ∈ s.tags, c < launched cfg
  once : s.tags.Nodup
  each : ∀ k, s.parent = .waiting k → s.tags.length = k
  selected : ∀ k i, s.parent = .reading k i → i < launched cfg ∧ i ∉ s.tags ∧ s.tags.length = k
  all : s.parent = .returned → ∀ c < launched cfg, c ∈ s.tags

theorem Inv.reports (h : Inv cfg s) (hinside : s.parent ≠ .outside) : Reports cfg s := by
  have hvalid : ∀ c ∈ s.collected, c < launched cfg := by
    intro c hc
    rw [← h.reaped] at hc
    exact h.lt_launched (by rw [hc]; decide)
  have htags : s.tags.length = s.printed.length := List.length_map ..
  refine ⟨hinside, fun c hc => hvalid c (List.mem_append_left _ hc),
    (List.nodup_append.1 h.nodup).1, fun k hparent => ?_, fun k i hparent => ?_, fun hparent c hc => ?_⟩
  · rw [htags, (h.of_waiting hparent).2.1]
  · have hcollected : s.collected = s.tags ++ [i] := by rw [State.collected, hparent]
    have hrounds := h.rounds
    have hnodup := h.nodup
    simp only [Rounds, hparent] at hrounds
    rw [hcollected] at hnodup hvalid
    refine ⟨hvalid i (by simp), fun hmem => ?_, htags.trans hrounds.2⟩
    exact (List.nodup_append.1 hnodup).2.2 i hmem i (by simp) rfl
  · exact h.reaped_at_end (Or.inl hparent) hc

/-- With more than `MAX` commands that write nothing, `main` gets past the end of `pids`. -/
theorem exists_outside {n : Nat} (hlong : MAX < n) :
    ∃ s, Reached ⟨n, fun _ => [], 65536, 4096⟩ s ∧ s.parent = .outside := by
  obtain ⟨s, hreached, hreturned | houtside | hdead⟩ :=
    exists_reached_stuck ⟨n, fun _ => [], 65536, 4096⟩
  · -- there would be more tags than children
    have hreports := hreached.inv.reports (by rw [hreturned]; decide)
    have hrounds := hreached.inv.rounds
    simp only [Rounds, hreturned] at hrounds
    have hsub : s.tags ⊆ List.range MAX := by
      intro c hc
      exact List.mem_range.2 (lt_of_lt_of_le (hreports.valid c hc) (Nat.min_le_right _ _))
    have hle := List.Nodup.length_le_of_subset hreports.once hsub
    have htags : s.tags.length = s.printed.length := List.length_map ..
    rw [List.length_range, htags, hrounds] at hle
    exact absurd hle (not_le.2 hlong)
  · exact ⟨s, hreached, houtside⟩
  · obtain ⟨-, ⟨c, hstatus⟩, hblocked⟩ := hdead
    exact absurd (hblocked c (Or.inl hstatus)) (hreached.not_blocked (Nat.zero_le _))

/-- For `n` commands, every launched child is reported once, in every order in which the children
finish, if and only if there are no more than `MAX` of them. -/
theorem reports_iff (n : Nat) :
    (∀ cfg : Setup, cfg.commands = n → ∀ s, Reached cfg s → Reports cfg s) ↔ n ≤ MAX := by
  constructor
  · intro h
    by_contra hlong
    obtain ⟨s, hreached, houtside⟩ := exists_outside (not_le.1 hlong)
    exact (h _ rfl s hreached).inside houtside
  · rintro hle cfg rfl s hreached
    refine hreached.inv.reports fun houtside => ?_
    have hrounds := hreached.inv.rounds
    simp only [Rounds, houtside] at hrounds
    omega

/-- Eleven commands are one too many. -/
theorem eleven_commands_leave_pids : ¬ ∀ cfg : Setup, 1 ≤ cfg.commands →
    ∀ s, Reached cfg s → Reports cfg s := by
  intro h
  obtain ⟨s, hreached, houtside⟩ := exists_outside (show MAX < 11 by decide)
  exact (h _ (by decide) s hreached).inside houtside

end SystemsProgramming.ParallelRunner
