import SystemsProgramming.Foundations.Conservation
import SystemsProgramming.MiniShell.Proofs.TerminationProofs

/-!
# The output of the shell

What the shell prints goes through the buffer of `stdout` and reaches the descriptor once. A child has a
copy of what is in the buffer, and puts it out if it cannot execute its command.
-/

namespace SystemsProgramming.MiniShell

open Foundations Prog

/-- What the shell prints to the stream. -/
def printed : Call → List UInt8
  | .printf data => data
  | _ => []

/-- What its stream hands to the descriptor. -/
def handedOver : Call → List UInt8
  | .write data => data
  | _ => []

/-- What the streams of its children hand to the descriptor. -/
def copied : Call → List UInt8
  | .writeCopy data => data
  | _ => []

/-- The bytes from the streams that reach the descriptor. -/
def output (calls : List Call) : List UInt8 := calls.flatMap fun c => handedOver c ++ copied c

/-! ## The stream keeps what is printed -/

/-- A part of the shell loses nothing and hands nothing over twice. -/
abbrev Keeps {α : Type} (p : Prog Vars Call α) : Prop := Conserves handedOver printed Vars.pending p

section Stream

variable (r : Round) (args : List (List UInt8))

theorem keeps_printf (i : Nat) (data : List UInt8) : Keeps (printf r i data) := by
  intro v
  simp [printf, handedOver, printed]

theorem keeps_finish : Keeps finish := by
  intro v
  simp [finish, handedOver, printed]

theorem keeps_execute : Keeps (execute r args) := by
  refine execute_cases r args (P := fun _ p => Keeps p) (.pure _) ?_ ?_ ?_ ?_ ?_
  · intro args
    unfold builtinCd
    cases args with
    | nil => exact .bind (.call rfl rfl) fun _ => .pure _
    | cons path args =>
      exact .bind (.call rfl rfl) fun _ => .ite (.pure _) (.bind (.call rfl rfl) fun _ => .pure _)
  · intro args
    unfold builtinHelp
    exact .bind (keeps_printf r _ _) fun _ => .bind (keeps_printf r _ _) fun _ =>
      .bind (keeps_printf r _ _) fun _ => .bind (keeps_printf r _ _) fun _ =>
      .bind (keeps_printf r _ _) fun _ => .pure _
  · intro args
    exact .pure _
  · intro args
    unfold builtinPwd
    cases pwd r with
    | prints buffer => exact .bind (keeps_printf r _ _) fun _ => .pure _
    | exits => exact .bind (.call rfl rfl) fun _ => .pure _
    | loops => exact .pure _
  · intro name args _
    unfold binExec
    cases r.command with
    | forkFails => exact .bind (.call rfl rfl) fun _ => .pure _
    | execFails =>
      exact .bind (.call rfl rfl) fun _ => .bind .get fun _ => .bind (.call rfl rfl) fun _ =>
        .bind (.modify fun _ => rfl) fun _ => .pure _
    | ran output offset signalled =>
      exact .bind (.call rfl rfl) fun _ => .bind (.modify fun _ => rfl) fun _ =>
        .ite (.bind (.call rfl rfl) fun _ => .pure _) (.pure _)

theorem keeps_loopEnd (result : Result) : Keeps (loopEnd result) := by
  cases result with
  | status status => exact .ite keeps_finish (.pure _)
  | exit => exact keeps_finish
  | none => exact .modify fun _ => rfl

theorem keeps_iteration : Keeps (iteration r) := by
  unfold iteration body
  refine .bind .get fun v => .ite ?_ (.pure _)
  exact .bind (keeps_printf r _ _) fun _ => .bind .get fun _ => .bind (.modify fun _ => rfl) fun _ =>
    .bind (.call rfl rfl) fun _ => .bind (keeps_execute r _) fun _ => keeps_loopEnd _

end Stream

/-! ## The copies -/

/-- If the tokens are those of a command that cannot be executed, no bytes wait when it is forked. -/
def NothingToCopy (r : Round) (args : List (List UInt8)) (pending : List UInt8) : Prop :=
  IsCommand args → r.command = .execFails → pending = []

/-- What the shell does to its stream, to its directory and on `stderr`. -/
def Call.isOwn : Call → Bool
  | .printf _ | .write _ | .chdir _ | .message _ => true
  | .execute _ | .writeCopy _ | .writeNewline | .command _ _ => false

theorem copied_of_own {c : Call} (h : c.isOwn = true) : copied c = [] := by
  cases c with
  | writeCopy data => cases h
  | _ => rfl

section Copies

variable (r : Round) (args : List (List UInt8))

theorem printf_own (i : Nat) (data : List UInt8) : AllCalls (fun c => c.isOwn = true) (printf r i data) :=
  .bind (.call rfl) fun _ => .bind .get fun _ => .bind (.call rfl) fun _ => .modify _

theorem loopEnd_own (result : Result) : AllCalls (fun c => c.isOwn = true) (loopEnd result) := by
  have hfinish : AllCalls (fun c => c.isOwn = true) finish :=
    .bind .get fun _ => .bind (.call rfl) fun _ => .modify _
  cases result with
  | status status => exact .ite hfinish (.pure _)
  | exit => exact hfinish
  | none => exact .modify _

/-- The builtins run nothing and start no child. -/
theorem builtin_own {name : List UInt8} {builtin} (h : builtins.lookup name = some builtin) :
    AllCalls (fun c => c.isOwn = true) (builtin r args) := by
  rw [builtins_lookup] at h
  split_ifs at h with h1 h2 h3 h4 <;> obtain rfl := Option.some.inj h
  · -- `cd`
    unfold builtinCd
    match args with
    | _ :: path :: _ =>
      exact .bind (.call rfl) fun _ => .ite (.pure _) (.bind (.call rfl) fun _ => .pure _)
    | [_] => exact .bind (.call rfl) fun _ => .pure _
    | [] => exact .bind (.call rfl) fun _ => .pure _
  · -- `help`
    exact .bind (printf_own r _ _) fun _ => .bind (printf_own r _ _) fun _ =>
      .bind (printf_own r _ _) fun _ => .bind (printf_own r _ _) fun _ =>
      .bind (printf_own r _ _) fun _ => .pure _
  · -- `exit`
    exact .pure _
  · -- `pwd`
    unfold builtinPwd
    cases pwd r with
    | prints buffer => exact .bind (printf_own r _ _) fun _ => .pure _
    | exits => exact .bind (.call rfl) fun _ => .pure _
    | loops => exact .pure _

theorem execute_builtin {name : List UInt8} {builtin} (h : builtins.lookup name = some builtin) :
    execute r (name :: args) = builtin r (name :: args) := by
  simp only [execute, h]

theorem execute_command {name : List UInt8} (h : builtins.lookup name = none) :
    execute r (name :: args) = binExec r (name :: args) := by
  simp only [execute, h]

theorem nothingToCopy_of_lookup {name : List UInt8} {builtin} (h : builtins.lookup name = some builtin)
    (pending : List UInt8) : NothingToCopy r (name :: args) pending := by
  rintro ⟨name', hname, hlookup⟩
  obtain rfl : name = name' := by simpa using hname
  rw [h] at hlookup
  cases hlookup

/-- The calls of `execute` copy nothing if and only if there is nothing to copy. -/
theorem copied_execute (v : Vars) :
    (∀ c ∈ (execute r args).calls v, copied c = []) ↔ NothingToCopy r args v.pending := by
  cases args with
  | nil =>
    refine iff_of_true (AllCalls.pure _ v) ?_
    rintro ⟨name, hname, -⟩
    cases hname
  | cons name args =>
    cases hlookup : builtins.lookup name with
    | some builtin =>
      rw [execute_builtin r args hlookup]
      exact iff_of_true (fun c hc => copied_of_own (builtin_own r (name :: args) hlookup v c hc))
        (nothingToCopy_of_lookup r args hlookup _)
    | none =>
      have hcommand : IsCommand (name :: args) := ⟨name, rfl, hlookup⟩
      rw [execute_command r args hlookup]
      unfold binExec
      cases hc : r.command with
      | forkFails => simp [copied, NothingToCopy, hc]
      | execFails => simp [copied, NothingToCopy, hcommand, hc]
      | ran output offset signalled => cases signalled <;> simp [copied, NothingToCopy, hc]

theorem calls_body (v : Vars) :
    (body r).calls v = (printf r 0 (ascii "> ")).calls v ++
      (.execute (tokenize (readline v.stdin.text).1) ::
        (execute r (tokenize (readline v.stdin.text).1) >>= loopEnd).calls (prompted r v)) := rfl

/-- A round copies nothing if and only if there is nothing to copy behind its prompt. -/
theorem copied_iteration (v : Vars) :
    (∀ c ∈ (iteration r).calls v, copied c = []) ↔
      (v.phase = .running →
        NothingToCopy r (tokenize (readline v.stdin.text).1) (prompted r v).pending) := by
  by_cases hv : v.phase = .running
  · have hcalls : (iteration r).calls v = (body r).calls v := by simp [iteration, hv]
    rw [hcalls, calls_body, List.forall_mem_append, List.forall_mem_cons, calls_bind,
      List.forall_mem_append, copied_execute]
    constructor
    · intro h _
      exact h.2.2.1
    · intro h
      exact ⟨fun c hc => copied_of_own (printf_own r 0 _ v c hc), rfl, h hv,
        fun c hc => copied_of_own (loopEnd_own _ _ c hc)⟩
  · simp [iteration, hv]

end Copies

/-! ## The end of the shell -/

theorem phase_execute (r : Round) (args : List (List UInt8)) (v : Vars) :
    ((execute r args).final v).phase = v.phase := by
  refine execute_cases r args (P := fun _ p => (p.final v).phase = v.phase) rfl ?_ ?_ ?_ ?_ ?_
  · intro args
    cases args with
    | nil => rfl
    | cons path args => cases h : r.chdir <;> simp [builtinCd, h]
  · intro args
    rfl
  · intro args
    rfl
  · intro args
    unfold builtinPwd
    cases pwd r <;> rfl
  · intro name args _
    unfold binExec
    cases r.command with
    | forkFails => rfl
    | execFails => rfl
    | ran output offset signalled => cases signalled <;> rfl

/-- A shell that has ended has nothing left in its buffer. -/
def EndsEmpty (v : Vars) : Prop := v.phase = .ended → v.pending = []

theorem endsEmpty_loopEnd (result : Result) {v : Vars} (hv : v.phase = .running) :
    EndsEmpty ((loopEnd result).final v) := by
  unfold EndsEmpty
  cases result with
  | status status =>
    unfold loopEnd
    rw [final_ite]
    split
    · exact fun _ => rfl
    · rw [final_pure, hv]
      exact fun h => Phase.noConfusion h
  | exit => exact fun _ => rfl
  | none => exact fun h => Phase.noConfusion h

theorem EndsEmpty.step {v : Vars} (h : EndsEmpty v) (r : Round) :
    EndsEmpty ((iteration r).final v) := by
  by_cases hv : v.phase = .running
  · rw [final_iteration_running r v hv]
    exact endsEmpty_loopEnd _ ((phase_execute r _ (prompted r v)).trans hv)
  · rwa [final_iteration_of_ne r v hv]

theorem EndsEmpty.run {v : Vars} (h : EndsEmpty v) (rounds : List Round) :
    EndsEmpty ((forEach iteration rounds).final v) := by
  induction rounds generalizing v with
  | nil => exact h
  | cons r rounds ih => exact ih (h.step r)

/-! ## A run of the shell -/

/-- A round that leaves nothing to copy: the line is not a command, or it can be executed, or all that
has been printed has been handed over. -/
def CopiesNothing (v : Vars) (r : Round) : Prop :=
  v.phase = .running → NothingToCopy r (tokenize (readline v.stdin.text).1) (prompted r v).pending

/-- What a shell prints until it ends reaches the descriptor once, and no child puts out a copy of
anything, if and only if in every round there is nothing to copy. -/
theorem output_iff (stdin : InputStream) (rounds : List Round)
    (hended : ((forEach iteration rounds).final (initial stdin)).phase = .ended) :
    (output ((forEach iteration rounds).calls (initial stdin)) =
        ((forEach iteration rounds).calls (initial stdin)).flatMap printed ∧
      ∀ c ∈ (forEach iteration rounds).calls (initial stdin), copied c = []) ↔
    AllSteps iteration (fun _ v r => CopiesNothing v r) [] (initial stdin) rounds := by
  set calls := (forEach iteration rounds).calls (initial stdin) with hcalls
  have hempty : ((forEach iteration rounds).final (initial stdin)).pending = [] :=
    EndsEmpty.run (fun h => Phase.noConfusion h) rounds hended
  have honce : calls.flatMap handedOver = calls.flatMap printed := by
    have h := Conserves.forEach keeps_iteration rounds (initial stdin)
    rw [hempty, List.append_nil] at h
    exact h
  have hcopies : output calls = calls.flatMap printed ↔ ∀ c ∈ calls, copied c = [] := by
    rw [← honce, output, eq_comm, flatMap_eq_append_iff]
  rw [hcopies, and_self, hcalls, ← allSteps_calls_iff (h := []) (s := initial stdin)]
  constructor
  · exact AllSteps.mono fun _ v r h => (copied_iteration r v).1 h
  · exact AllSteps.mono fun _ v r h => (copied_iteration r v).2 h

/-- Nothing is handed over before the end, and the command becomes this. -/
def unflushed (command : Command) : Round := { smooth with command := command }

theorem output_of_ls :
    let calls := (forEach iteration [unflushed (.ran (ascii "main.c\n") none false), smooth]).calls
      (initial (script (ascii "ls\nexit\n")))
    output calls = calls.flatMap printed ∧ ∀ c ∈ calls, copied c = [] :=
  (output_iff (script (ascii "ls\nexit\n")) [unflushed (.ran (ascii "main.c\n") none false), smooth]
    (by decide)).2 ⟨fun _ _ h => Command.noConfusion h, fun _ _ h => Command.noConfusion h, trivial⟩

/-- The first prompt comes out twice when there is no command `foo`. -/
theorem prompt_put_out_twice :
    let run := forEach iteration [unflushed .execFails, smooth]
    let calls := run.calls (initial (script (ascii "foo\nexit\n")))
    (run.final (initial (script (ascii "foo\nexit\n")))).phase = .ended ∧ output calls = ascii "> > > " ∧
      ¬ (output calls = calls.flatMap printed ∧ ∀ c ∈ calls, copied c = []) := by
  refine ⟨by decide, by decide, fun h => ?_⟩
  have hprinted : ascii "> > > " = ascii "> > " := h.1
  exact absurd hprinted (by decide)

end SystemsProgramming.MiniShell
