import SystemsProgramming.MiniShell.Proofs.StdinProofs

/-!
# When the shell ends

A round of the loop takes one line of the input, and behind the last line it takes empty ones: an end
of the file is not seen. What becomes of the shell in a round depends on the first token of the line, so
that it ends with the first line that is an `exit`, or a `pwd` for which `builtin_pwd` calls `exit`. The
lines are those of the standard input, unless a child sets its offset back: then some are read once more.
-/

namespace SystemsProgramming.MiniShell

open Foundations Prog

/-! ## What a round does to the variables -/

/-- What becomes of the shell when it executes these tokens. -/
def fate (r : Round) (args : List (List UInt8)) : Phase :=
  if args.head? = some (ascii "exit") then .ended
  else if args.head? = some (ascii "pwd") then
    match pwd r with
    | .prints _ => .running
    | .exits => .ended
    | .loops => .inPwd
  else .running

theorem pwd_ne_exit : ascii "pwd" ≠ ascii "exit" := by decide

section Rounds

variable (r : Round) (args : List (List UInt8)) (v : Vars)

@[simp] theorem final_printf (i : Nat) (data : List UInt8) :
    (printf r i data).final v = { v with pending := (v.pending ++ data).drop (r.handed i) } := rfl

@[simp] theorem final_finish : finish.final v = { v with pending := [], phase := .ended } := rfl

theorem lookup_cons_eq_ite {β : Type} (k name : List UInt8) (b : β)
    (table : List (List UInt8 × β)) :
    ((k, b) :: table).lookup name = if name = k then some b else table.lookup name := by
  rw [List.lookup_cons]
  by_cases h : name = k
  · rw [if_pos h, beq_iff_eq.2 h]
  · rw [if_neg h, beq_eq_false_iff_ne.2 h]

theorem builtins_lookup (name : List UInt8) :
    builtins.lookup name =
      if name = ascii "cd" then some builtinCd
      else if name = ascii "help" then some builtinHelp
      else if name = ascii "exit" then some builtinExit
      else if name = ascii "pwd" then some builtinPwd
      else none := by
  unfold builtins
  rw [lookup_cons_eq_ite, lookup_cons_eq_ite, lookup_cons_eq_ite, lookup_cons_eq_ite, List.lookup_nil]

/-- A property of what `execute` does, one case for every way it may go. -/
theorem execute_cases {P : List (List UInt8) → Prog Vars Call Result → Prop}
    (hnil : P [] (pure (.status 1)))
    (hcd : ∀ args, P (ascii "cd" :: args) (builtinCd r (ascii "cd" :: args)))
    (hhelp : ∀ args, P (ascii "help" :: args) (builtinHelp r (ascii "help" :: args)))
    (hexit : ∀ args, P (ascii "exit" :: args) (builtinExit r (ascii "exit" :: args)))
    (hpwd : ∀ args, P (ascii "pwd" :: args) (builtinPwd r (ascii "pwd" :: args)))
    (hbin : ∀ name args, builtins.lookup name = none → P (name :: args) (binExec r (name :: args))) :
    P args (execute r args) := by
  unfold execute
  cases args with
  | nil => exact hnil
  | cons name args =>
    have hlookup := builtins_lookup name
    simp only
    split_ifs at hlookup with h1 h2 h3 h4
    · rw [hlookup, h1]
      exact hcd args
    · rw [hlookup, h2]
      exact hhelp args
    · rw [hlookup, h3]
      exact hexit args
    · rw [hlookup, h4]
      exact hpwd args
    · rw [hlookup]
      exact hbin name args hlookup

theorem of_lookup_eq_none {name : List UInt8} (h : builtins.lookup name = none) :
    name ≠ ascii "exit" ∧ name ≠ ascii "pwd" := by
  rw [builtins_lookup] at h
  split_ifs at h with h1 h2 h3 h4
  exact ⟨h3, h4⟩

theorem fate_running {name : List UInt8} {args : List (List UInt8)} (h1 : name ≠ ascii "exit")
    (h2 : name ≠ ascii "pwd") : fate r (name :: args) = .running := by
  simp [fate, h1, h2]

/-- The end of a round: the phase is the fate of the tokens, and the input is what a child leaves. -/
theorem execute_loopEnd (hv : v.phase = .running) :
    ((execute r args >>= loopEnd).final v).phase = fate r args ∧
      ((execute r args >>= loopEnd).final v).stdin = executeLeaves r args v.stdin := by
  refine execute_cases r args (P := fun args p => ((p >>= loopEnd).final v).phase = fate r args ∧
    ((p >>= loopEnd).final v).stdin = executeLeaves r args v.stdin) ⟨hv, rfl⟩ ?_ ?_ ?_ ?_ ?_
  · intro args
    have hleaves : executeLeaves r (ascii "cd" :: args) v.stdin = v.stdin := rfl
    rw [hleaves, fate_running r (by decide) (by decide)]
    cases args with
    | nil => exact ⟨hv, rfl⟩
    | cons path args => cases h : r.chdir <;> simp [builtinCd, loopEnd, h, hv]
  · intro args
    rw [fate_running r (by decide) (by decide)]
    exact ⟨hv, rfl⟩
  · intro args
    exact ⟨by simp [builtinExit, loopEnd, fate], rfl⟩
  · intro args
    have hleaves : executeLeaves r (ascii "pwd" :: args) v.stdin = v.stdin := rfl
    rw [hleaves]
    unfold builtinPwd fate
    cases pwd r <;> simp [loopEnd, hv, pwd_ne_exit]
  · intro name args hlookup
    obtain ⟨h1, h2⟩ := of_lookup_eq_none hlookup
    rw [fate_running r h1 h2, executeLeaves_command r hlookup]
    unfold binExec
    cases r.command with
    | forkFails => exact ⟨hv, rfl⟩
    | execFails => exact ⟨hv, rfl⟩
    | ran output offset signalled => cases signalled <;> exact ⟨hv, rfl⟩

/-- The variables when `execute` is called. -/
def prompted : Vars :=
  { v with stdin := behindLine v.stdin, pending := (v.pending ++ ascii "> ").drop (r.handed 0) }

theorem final_body_eq : (body r).final v =
    (execute r (tokenize (readline v.stdin.text).1) >>= loopEnd).final (prompted r v) := rfl

theorem final_body (hv : v.phase = .running) :
    ((body r).final v).phase = fate r (tokenize (readline v.stdin.text).1) ∧
      ((body r).final v).stdin =
        executeLeaves r (tokenize (readline v.stdin.text).1) (behindLine v.stdin) := by
  rw [final_body_eq]
  exact execute_loopEnd r _ (prompted r v) hv

theorem final_iteration_running (hv : v.phase = .running) :
    (iteration r).final v = (body r).final v := by
  simp [iteration, hv]

/-- A shell that has ended, or that does not come back, stays as it is. -/
theorem final_iteration_of_ne (hv : v.phase ≠ .running) : (iteration r).final v = v := by
  simp [iteration, hv]

end Rounds

/-! ## The loop -/

/-- The line ends the shell: it is an `exit`, or a `pwd` for which `builtin_pwd` calls `exit`. -/
def EndsShell (r : Round) (line : List UInt8) : Prop :=
  (tokenize line).head? = some (ascii "exit") ∨
    ((tokenize line).head? = some (ascii "pwd") ∧ pwd r = .exits)

/-- The line is a `pwd` from which `builtin_pwd` does not come back. -/
def Hangs (r : Round) (line : List UInt8) : Prop :=
  (tokenize line).head? = some (ascii "pwd") ∧ pwd r = .loops

/-- The shell after `n` rounds. -/
def after (stdin : InputStream) (rounds : Nat → Round) (n : Nat) : Vars :=
  (forEach iteration ((List.range n).map rounds)).final (initial stdin)

theorem fate_eq_ended {r : Round} {line : List UInt8} :
    fate r (tokenize line) = .ended ↔ EndsShell r line := by
  unfold fate EndsShell
  split_ifs with h1 h2
  · simp [h1]
  · cases h : pwd r <;> simp [h2, pwd_ne_exit]
  · simp [h1, h2]

theorem fate_eq_inPwd {r : Round} {line : List UInt8} :
    fate r (tokenize line) = .inPwd ↔ Hangs r line := by
  unfold fate Hangs
  split_ifs with h1 h2
  · simp [h1, pwd_ne_exit.symm]
  · cases h : pwd r <;> simp [h2]
  · simp [h2]

theorem after_succ (stdin : InputStream) (rounds : Nat → Round) (n : Nat) :
    after stdin rounds (n + 1) = (iteration (rounds n)).final (after stdin rounds n) := by
  unfold after
  rw [List.range_succ, List.map_append, final_forEach_append]
  rfl

section Loop

variable (stdin : InputStream) (rounds : Nat → Round)

/-- No line before the line `k` ends the shell or hangs. -/
def Quiet (k : Nat) : Prop :=
  ∀ j < k, ¬ EndsShell (rounds j) (lineRead stdin rounds j) ∧ ¬ Hangs (rounds j) (lineRead stdin rounds j)

/-- Where the shell is after `n` rounds, by the lines it has read. -/
def Tracks (n : Nat) (v : Vars) : Prop :=
  match v.phase with
  | .running => v.stdin = stdinAt stdin rounds n ∧ Quiet stdin rounds n
  | .inPwd => ∃ k, Quiet stdin rounds k ∧ Hangs (rounds k) (lineRead stdin rounds k)
  | .ended => ∃ k, Quiet stdin rounds k ∧ EndsShell (rounds k) (lineRead stdin rounds k)

variable {stdin rounds}

theorem Quiet.succ {k : Nat} (h : Quiet stdin rounds k)
    (h1 : ¬ EndsShell (rounds k) (lineRead stdin rounds k))
    (h2 : ¬ Hangs (rounds k) (lineRead stdin rounds k)) :
    Quiet stdin rounds (k + 1) := by
  intro j hj
  rcases Nat.lt_succ_iff_lt_or_eq.1 hj with hj | rfl
  · exact h j hj
  · exact ⟨h1, h2⟩

section Tracks

variable {n : Nat} {v : Vars}

theorem Tracks.running (h : Tracks stdin rounds n v) (hv : v.phase = .running) :
    v.stdin = stdinAt stdin rounds n ∧ Quiet stdin rounds n := by
  unfold Tracks at h
  rwa [hv] at h

theorem Tracks.inPwd (h : Tracks stdin rounds n v) (hv : v.phase = .inPwd) :
    ∃ k, Quiet stdin rounds k ∧ Hangs (rounds k) (lineRead stdin rounds k) := by
  unfold Tracks at h
  rwa [hv] at h

theorem Tracks.ended (h : Tracks stdin rounds n v) (hv : v.phase = .ended) :
    ∃ k, Quiet stdin rounds k ∧ EndsShell (rounds k) (lineRead stdin rounds k) := by
  unfold Tracks at h
  rwa [hv] at h

theorem Tracks.step (h : Tracks stdin rounds n v) :
    Tracks stdin rounds (n + 1) ((iteration (rounds n)).final v) := by
  by_cases hv : v.phase = .running
  · obtain ⟨hstdin, hquiet⟩ := h.running hv
    obtain ⟨hphase, hleaves⟩ := final_body (rounds n) v hv
    rw [hstdin] at hphase hleaves
    rw [final_iteration_running _ _ hv]
    unfold Tracks
    rw [hphase]
    cases hf : fate (rounds n) (tokenize (readline (stdinAt stdin rounds n).text).1) with
    | running =>
      refine ⟨hleaves, hquiet.succ ?_ ?_⟩
      · rw [← fate_eq_ended, lineRead, hf]
        exact Phase.noConfusion
      · rw [← fate_eq_inPwd, lineRead, hf]
        exact Phase.noConfusion
    | inPwd => exact ⟨n, hquiet, fate_eq_inPwd.1 hf⟩
    | ended => exact ⟨n, hquiet, fate_eq_ended.1 hf⟩
  · rw [final_iteration_of_ne _ _ hv]
    unfold Tracks
    cases hp : v.phase with
    | running => exact absurd hp hv
    | inPwd => exact h.inPwd hp
    | ended => exact h.ended hp

end Tracks

theorem tracks_after (stdin : InputStream) (rounds : Nat → Round) (n : Nat) :
    Tracks stdin rounds n (after stdin rounds n) := by
  induction n with
  | zero => exact ⟨rfl, fun j hj => absurd hj (Nat.not_lt_zero j)⟩
  | succ n ih =>
    rw [after_succ]
    exact ih.step

/-! ## The end of the shell -/

variable (stdin rounds)

theorem ended_iff : (∃ n, (after stdin rounds n).phase = .ended) ↔
    ∃ k, EndsShell (rounds k) (lineRead stdin rounds k) ∧
      ∀ j < k, ¬ Hangs (rounds j) (lineRead stdin rounds j) := by
  constructor
  · rintro ⟨n, hn⟩
    obtain ⟨k, hquiet, hends⟩ := (tracks_after stdin rounds n).ended hn
    exact ⟨k, hends, fun j hj => (hquiet j hj).2⟩
  · rintro ⟨k, hends, hhangs⟩
    refine ⟨k + 1, ?_⟩
    have h := tracks_after stdin rounds (k + 1)
    cases hp : (after stdin rounds (k + 1)).phase with
    | running => exact absurd hends ((h.running hp).2 k (Nat.lt_succ_self k)).1
    | ended => rfl
    | inPwd =>
      obtain ⟨i, hquiet, hi⟩ := h.inPwd hp
      rcases Nat.lt_trichotomy i k with hik | rfl | hki
      · exact absurd hi (hhangs i hik)
      · have h1 := fate_eq_ended.2 hends
        rw [fate_eq_inPwd.2 hi] at h1
        cases h1
      · exact absurd hends (hquiet k hki).1

end Loop

/-- The line behind the first block is an `exit`, but the commands in that block are not found: the shell
reads them again and again. -/
theorem exit_never_read (n : Nat) : EndsShell notFound (lineAt (fullBlock n).text 3) ∧
    ¬ ∃ k, (after (fullBlock n) (fun _ => notFound) k).phase = .ended := by
  constructor
  · rw [lineAt_fullBlock]
    exact Or.inl (by decide)
  · rintro ⟨k, hk⟩
    obtain ⟨j, hends, -⟩ := (ended_iff _ _).1 ⟨k, hk⟩
    obtain ⟨spaces, hline⟩ := lineRead_fullBlock n j
    obtain ⟨args, hargs⟩ := tokenize_commandLine spaces
    rw [EndsShell, hline, hargs, List.head?_cons] at hends
    rcases hends with h | ⟨h, -⟩ <;> revert h <;> decide

end SystemsProgramming.MiniShell
