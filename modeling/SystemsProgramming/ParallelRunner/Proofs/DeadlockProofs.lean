import SystemsProgramming.ParallelRunner.Proofs.StepProofs

/-!
# Proofs: when the parent waits for ever

The parent reads from a pipe only after its child has exited, and the child exits only when all it
writes is in the pipe. So a child gets to its end exactly when its whole output fits there.
-/

namespace SystemsProgramming.ParallelRunner

open Foundations

variable {cfg : Setup} {s s' : State} {a : Action}

/-- All that a command writes to its stdout. -/
def Setup.output (cfg : Setup) (c : Nat) : List UInt8 := (cfg.writes c).flatten

/-- The books of a child: nothing of its output is lost before the parent reads, the pipe holds no more
than it can, and a child that has exited has written all of its output. -/
structure Books (cfg : Setup) (s : State) (c : Nat) : Prop where
  whole : c ∉ s.tags → (s.children c).pipe ++ (s.children c).todo.flatten = cfg.output c
  fits : (s.children c).pipe.length ≤ cfg.capacity
  done : (s.children c).status = .exited ∨ (s.children c).status = .reaped →
    (s.children c).todo = [] ∧ (cfg.output c).length ≤ cfg.capacity

theorem wrote_whole {child : Child} {w : List UInt8} {ws : List (List UInt8)} {len : Nat}
    (htodo : child.todo = w :: ws) :
    (child.wrote w ws len).pipe ++ (child.wrote w ws len).todo.flatten =
      child.pipe ++ child.todo.flatten := by
  unfold Child.wrote
  rw [htodo]
  split
  · simp
  · simp only [List.flatten_cons, List.append_assoc]
    rw [← List.append_assoc (w.take len), List.take_append_drop]

theorem length_wrote {child : Child} {w : List UInt8} {ws : List (List UInt8)} {len : Nat}
    (hcan : child.CanWrite cfg w len) (hfits : child.pipe.length ≤ cfg.capacity) :
    (child.wrote w ws len).pipe.length ≤ cfg.capacity := by
  obtain ⟨hlen, hroom, -, -⟩ := hcan
  unfold Child.room at hroom
  unfold Child.wrote
  split
  · rename_i hall
    rw [List.length_append, ← hall]
    omega
  · rw [List.length_append, List.length_take]
    omega

/-- Every step keeps the books of every child. -/
theorem Books.step (hinv : Inv cfg s) (h : ∀ c, Books cfg s c)
    (hstep : ParallelRunner.step cfg s a = some s') (d : Nat) : Books cfg s' d := by
  have hsame : ∀ {s1 : State}, s1.children d = s.children d → s1.tags = s.tags → Books cfg s1 d := by
    intro s1 hchild htags
    refine ⟨?_, ?_, ?_⟩ <;> rw [hchild]
    · rw [htags]
      exact (h d).whole
    · exact (h d).fits
    · exact (h d).done
  cases step_iff.1 hstep with
  | @fork i pid hparent hpos hfresh =>
    by_cases hd : d = i
    · subst hd
      refine ⟨?_, ?_, ?_⟩ <;> simp only [setChild_children_self]
      · exact (h d).whole
      · exact (h d).fits
      · simp
    · exact hsame (setChild_children_of_ne s _ hd) rfl
  | @write c len w ws hstatus htodo hcan =>
    by_cases hd : d = c
    · subst hd
      refine ⟨?_, ?_, ?_⟩ <;> simp only [setChild_children_self]
      · rw [wrote_whole htodo]
        exact (h d).whole
      · exact length_wrote hcan (h d).fits
      · rw [wrote_status, hstatus]
        simp
    · exact hsame (setChild_children_of_ne s _ hd) rfl
  | @exit c hstatus htodo =>
    by_cases hd : d = c
    · subst hd
      have hnot : d ∉ s.tags := hinv.not_mem_tags (by rw [hstatus]; decide)
      refine ⟨?_, ?_, ?_⟩ <;> simp only [setChild_children_self]
      · exact (h d).whole
      · exact (h d).fits
      · intro _
        have hwhole := (h d).whole hnot
        rw [htodo, List.flatten_nil, List.append_nil] at hwhole
        exact ⟨htodo, hwhole ▸ (h d).fits⟩
    · exact hsame (setChild_children_of_ne s _ hd) rfl
  | @wait c k hparent hstatus =>
    by_cases hd : d = c
    · subst hd
      refine ⟨?_, ?_, ?_⟩ <;> simp only [setChild_children_self]
      · exact (h d).whole
      · exact (h d).fits
      · exact fun _ => (h d).done (Or.inl hstatus)
    · exact hsame (setChild_children_of_ne s _ hd) rfl
  | waitFails hparent hnone => exact hsame rfl rfl
  | @read k i hparent =>
    have htags : ({ s.setChild i { s.children i with pipe := (s.children i).pipe.drop BUFFER } with
        parent := collectLoop cfg (k + 1)
        printed := s.printed ++ [(i, (s.children i).pipe.take BUFFER)] } : State).tags =
        s.tags ++ [i] := List.map_append ..
    by_cases hd : d = i
    · subst hd
      refine ⟨fun hnot => ?_, ?_, ?_⟩
      · rw [htags] at hnot
        simp at hnot
      · simp only [setChild_children_self]
        rw [List.length_drop]
        exact le_trans (Nat.sub_le _ _) (h d).fits
      · simp only [setChild_children_self]
        exact (h d).done
    · refine ⟨fun hnot => ?_, ?_, ?_⟩ <;> simp only [setChild_children_of_ne s _ hd]
      · rw [htags, List.mem_append, not_or] at hnot
        exact (h d).whole hnot.1
      · exact (h d).fits
      · exact (h d).done

theorem books_initial (cfg : Setup) (c : Nat) : Books cfg (initial cfg) c :=
  ⟨fun _ => rfl, Nat.zero_le _, fun h => by rcases h with h | h <;> cases h⟩

/-- The books are kept in every state that is reached. -/
theorem Reached.books (h : Reached cfg s) (c : Nat) : Books cfg s c := by
  refine (h.invariant (I := fun s => Inv cfg s ∧ ∀ c, Books cfg s c)
    ⟨inv_initial cfg, books_initial cfg⟩ fun _ _ _ hI hstep => ?_).2 c
  exact ⟨hI.1.step hstep, Books.step hI.1 hI.2 hstep⟩

/-- A child whose output fits into its pipe can always go on writing. -/
theorem Reached.not_blocked (h : Reached cfg s) {c : Nat}
    (hfits : (cfg.output c).length ≤ cfg.capacity) : ¬ (s.children c).Blocked cfg := by
  rintro ⟨hstatus, w, ws, htodo, hno⟩
  have hnot : c ∉ s.tags := h.inv.not_mem_tags (by rw [hstatus]; decide)
  have hwhole := congrArg List.length ((h.books c).whole hnot)
  rw [htodo, List.length_append, List.flatten_cons, List.length_append] at hwhole
  refine hno w.length ⟨Nat.le_refl _, ?_, List.length_pos_iff.2, fun _ _ => rfl⟩
  unfold Child.room
  omega

/-- From the start, `main` and its children run until nobody can move. -/
theorem exists_reached_stuck (cfg : Setup) : ∃ s, Reached cfg s ∧
    (s.parent = .returned ∨ s.parent = .outside ∨ Deadlock cfg s) := by
  obtain ⟨s, hreached, -, hstuck⟩ := exists_stuck (I := Inv cfg) (State.work cfg)
    (inv_initial cfg) fun _ _ _ hI hstep => ⟨hI.step hstep, hI.work_lt hstep⟩
  exact ⟨s, hreached, stuck_cases hstuck⟩

/-- A command that writes more than its pipe holds brings `main` into a deadlock. -/
theorem exists_deadlock {c : Nat} (hc : c < launched cfg)
    (hlong : cfg.capacity < (cfg.output c).length) : ∃ s, Reached cfg s ∧ Deadlock cfg s := by
  obtain ⟨s, hreached, hstuck⟩ := exists_reached_stuck cfg
  have hend : ¬ (s.parent = .returned ∨ s.parent = .outside) := by
    intro hend
    have hmem := hreached.inv.reaped_at_end hend hc
    have hreaped := (hreached.inv.reaped c).2 (List.mem_append_left _ hmem)
    have hle := ((hreached.books c).done (Or.inr hreaped)).2
    omega
  rw [← or_assoc] at hstuck
  exact ⟨s, hreached, hstuck.resolve_left hend⟩

/-- The parent never waits for children that all wait for room in their pipes if and only if no command
that it launches writes more than a pipe holds. -/
theorem deadlock_free_iff (cfg : Setup) :
    (∀ s, Reached cfg s → ¬ Deadlock cfg s) ↔
      ∀ c < launched cfg, (cfg.output c).length ≤ cfg.capacity := by
  constructor
  · intro h c hc
    by_contra hlong
    obtain ⟨s, hreached, hdead⟩ := exists_deadlock hc (not_le.1 hlong)
    exact h s hreached hdead
  · rintro h s hreached ⟨-, ⟨c, hstatus⟩, hblocked⟩
    have hc : c < launched cfg := hreached.inv.lt_launched (by rw [hstatus]; decide)
    exact hreached.not_blocked (h c hc) (hblocked c (Or.inl hstatus))

/-- One command that writes a byte more than a pipe of 64 KiB holds. -/
theorem long_output_deadlocks : ¬ ∀ cfg : Setup, cfg.commands ≤ MAX →
    ∀ s, Reached cfg s → ¬ Deadlock cfg s := by
  intro h
  have hlong : (Setup.output ⟨1, fun _ => [List.replicate 65537 120], 65536, 4096⟩ 0).length =
      65537 := by
    rw [Setup.output, List.flatten_singleton, List.length_replicate]
  have hlaunched : 0 < launched ⟨1, fun _ => [List.replicate 65537 120], 65536, 4096⟩ := by decide
  obtain ⟨s, hreached, hdead⟩ := exists_deadlock hlaunched (by rw [hlong]; decide)
  exact h _ (by decide) s hreached hdead

end SystemsProgramming.ParallelRunner
