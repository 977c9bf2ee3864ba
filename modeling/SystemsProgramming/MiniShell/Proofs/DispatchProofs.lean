import SystemsProgramming.MiniShell.Proofs.LineProofs
import SystemsProgramming.MiniShell.Proofs.OutputProofs
import SystemsProgramming.MiniShell.Proofs.TokenVectorProofs

/-!
# Proofs: what the shell executes

A round executes the words of its line. As long as the handlers come back, and no child makes the shell
read anything again, the round `k` has the line `k`, up to the first line that begins with `exit`, or that
is too long for `readline`: there the shell ends before it executes anything.
-/

namespace SystemsProgramming.MiniShell

open Foundations Prog

variable {memory : Int32 → Memory} {input : List UInt8} {stdin : InputStream} {rounds : Nat → Round}
  {r : Round} {args : List (List UInt8)} {v : Vars} {n k : Nat}

/-! ## The lines -/

/-- The words of a line. -/
def lineWords (line : List UInt8) : List (List UInt8) := words (· ∈ strtokDelim) line

/-- The first word of the line is `exit`. -/
def isExit (line : List UInt8) : Bool := (lineWords line).head? = some (ascii "exit")

/-- The number of lines in front of the first one that begins with `exit`. -/
def exitLine (input : List UInt8) : Nat := (input.splitOn 10).findIdx isExit

/-- The lines up to and including the first one that begins with `exit`. -/
def typedLines (input : List UInt8) : List (List UInt8) :=
  (input.splitOn 10).take (exitLine input + 1)

theorem readline_subset (input : List UInt8) :
    (readline input).1 ⊆ input ∧ (readline input).2 ⊆ input := by
  induction input with
  | nil => exact ⟨List.Subset.refl _, List.Subset.refl _⟩
  | cons c input ih =>
    rw [readline]
    split
    · exact ⟨List.nil_subset _, List.subset_cons_self ..⟩
    · exact ⟨List.cons_subset_cons c ih.1, List.subset_cons_of_subset c ih.2⟩

theorem rest_subset (input : List UInt8) (k : Nat) : rest input k ⊆ input := by
  induction k with
  | zero => exact List.Subset.refl _
  | succ k ih => exact List.Subset.trans (readline_subset _).2 ih

/-- The tokens of a line without a zero byte are its words. -/
theorem tokenize_lineAt (hnul : 0 ∉ input) (k : Nat) :
    tokenize (lineAt input k) = lineWords (lineAt input k) := by
  have hsub : lineAt input k ⊆ input := by
    rw [← readline_rest]
    exact List.Subset.trans (readline_subset _).1 (rest_subset input k)
  rw [tokenize_eq_words, cString_of_not_mem fun h => hnul (hsub h)]
  rfl

/-! ## What is executed -/

/-- The token vectors that `execute` is called with. -/
def executed (calls : List Call) : List (List (List UInt8)) :=
  calls.filterMap fun
    | .execute args => some args
    | _ => none

@[simp] theorem executed_append (cs ds : List Call) : executed (cs ++ ds) = executed cs ++ executed ds :=
  List.filterMap_append ..

/-- The call is none of `execute`. -/
def Call.isInner : Call → Bool
  | .execute _ => false
  | _ => true

theorem executed_of_inner {cs : List Call} (h : ∀ c ∈ cs, c.isInner = true) : executed cs = [] := by
  refine List.filterMap_eq_nil_iff.2 fun c hc => ?_
  have hinner := h c hc
  cases c <;> first | rfl | cases hinner

theorem inner_of_own {c : Call} (h : c.isOwn = true) : c.isInner = true := by
  cases c with
  | execute args => cases h
  | _ => rfl

theorem executed_printf (r : Round) (i : Nat) (data : List UInt8) (v : Vars) :
    executed ((printf r i data).calls v) = [] :=
  executed_of_inner ((printf_own r i data).mono (fun _ => inner_of_own) v)

/-- No handler calls `execute`. -/
theorem execute_inner (r : Round) (args : List (List UInt8)) :
    AllCalls (fun c => c.isInner = true) (execute r args) := by
  cases args with
  | nil => exact .pure _
  | cons name args =>
    cases hlookup : builtins.lookup name with
    | some builtin =>
      rw [execute_builtin r args hlookup]
      exact (builtin_own r _ hlookup).mono fun _ => inner_of_own
    | none =>
      rw [execute_command r args hlookup]
      unfold binExec
      cases r.command with
      | forkFails => exact .bind (.call rfl) fun _ => .pure _
      | execFails =>
        exact .bind (.call rfl) fun _ => .bind .get fun _ => .bind (.call rfl) fun _ =>
          .bind (.modify _) fun _ => .pure _
      | ran output offset signalled =>
        exact .bind (.call rfl) fun _ => .bind (.modify _) fun _ =>
          .ite (.bind (.call rfl) fun _ => .pure _) (.pure _)

/-- The line is not too long for `readline`. -/
def Fits (line : List UInt8) : Prop := line.length < 2 ^ 31 - 1024

instance (line : List UInt8) : Decidable (Fits line) := by
  unfold Fits
  infer_instance

/-- The tokens in the block are those of the line. -/
theorem tokenize_readlineIn (memory : Int32 → Memory) (hfits : Fits (readline input).1) :
    ∃ block position, readlineIn memory input = some (block, position) ∧
      tokenize block = tokenize (readline input).1 := by
  obtain ⟨block, hread, htake, hget⟩ := readlineIn_eq_some memory hfits
  generalize (readline input).1 = line at hread htake hget ⊢
  obtain ⟨hlt, hzero⟩ := List.getElem?_eq_some_iff.1 hget
  have hblock : block = line ++ 0 :: block.drop (line.length + 1) := by
    conv_lhs => rw [← List.take_append_drop line.length block]
    rw [htake, List.drop_eq_getElem_cons hlt, hzero]
  refine ⟨block, _, hread, ?_⟩
  rw [tokenize_eq_words, tokenize_eq_words, hblock, cString_append_cons_zero]

/-- Where the line fits, the block makes no difference. -/
theorem bodyIn_of_fits (memory : Int32 → Memory) (r : Round) (hfits : Fits (readline v.stdin.text).1) :
    (bodyIn memory r).final v = (body r).final v ∧ (bodyIn memory r).calls v = (body r).calls v := by
  obtain ⟨block, position, hread, htokens⟩ := tokenize_readlineIn memory hfits
  constructor
  · simp only [bodyIn, body, final_bind, final_printf, final_get, value_get, hread, htokens]
  · simp only [bodyIn, body, calls_bind, final_printf, calls_get, final_get, value_get, hread, htokens]

/-- Where it does not, the shell ends. -/
theorem bodyIn_of_not_fits (memory : Int32 → Memory) (r : Round) (hfits : ¬ Fits (readline v.stdin.text).1) :
    ((bodyIn memory r).final v).phase = .ended ∧ executed ((bodyIn memory r).calls v) = [] := by
  have hread : readlineIn memory v.stdin.text = none := readlineIn_eq_none memory (not_lt.1 hfits)
  constructor
  · simp [bodyIn, hread]
  · simp only [bodyIn, calls_bind, final_printf, calls_get, final_get, value_get, hread, executed_append,
      executed_printf]
    rfl

/-- A round executes the tokens of its line, and nothing else. -/
theorem executed_body (r : Round) (v : Vars) :
    executed ((body r).calls v) = [tokenize (readline v.stdin.text).1] := by
  have hinner := AllCalls.bind (execute_inner r (tokenize (readline v.stdin.text).1)) fun result =>
    (loopEnd_own result).mono fun _ => inner_of_own
  rw [calls_body, executed_append, executed_printf, List.nil_append]
  exact congrArg (_ :: ·) (executed_of_inner (hinner (prompted r v)))

/-! ## The rounds -/

/-- The handlers of these tokens come back to the loop. -/
def Returns (r : Round) (args : List (List UInt8)) : Prop :=
  ∀ v, ∃ status, (execute r args).value v = .status status

theorem pwd_of_returns {args : List (List UInt8)} (h : Returns r (ascii "pwd" :: args)) :
    ∃ buffer, pwd r = .prints buffer := by
  have hexec : execute r (ascii "pwd" :: args) = builtinPwd r (ascii "pwd" :: args) := rfl
  obtain ⟨status, hvalue⟩ := h (initial (script []))
  rw [hexec, builtinPwd] at hvalue
  cases hpwd : pwd r with
  | prints buffer => exact ⟨buffer, rfl⟩
  | exits => simp [hpwd] at hvalue
  | loops => simp [hpwd] at hvalue

/-- Only `pwd` may not come back. -/
theorem returns_of_pwd {buffer : List UInt8} (h : pwd r = .prints buffer) (args : List (List UInt8)) :
    Returns r args := by
  refine execute_cases r args (P := fun _ p => ∀ v, ∃ status, p.value v = .status status)
    (fun _ => ⟨1, rfl⟩) ?_ (fun _ _ => ⟨1, rfl⟩) (fun _ _ => ⟨0, rfl⟩) ?_ ?_
  · intro args v
    refine ⟨1, ?_⟩
    cases args with
    | nil => rfl
    | cons path args => cases hchdir : r.chdir <;> simp [builtinCd, hchdir]
  · intro args v
    rw [builtinPwd, h]
    exact ⟨1, rfl⟩
  · intro name args _ v
    refine ⟨1, ?_⟩
    unfold binExec
    cases r.command with
    | forkFails => rfl
    | execFails => rfl
    | ran output offset signalled => cases signalled <;> rfl

/-- A line that does not begin with `exit`, and whose handler comes back, leaves the shell running. -/
theorem fate_of_returns (hexit : args.head? ≠ some (ascii "exit")) (hreturns : Returns r args) :
    fate r args = .running := by
  rw [fate, if_neg hexit]
  split
  · rename_i hpwd
    obtain ⟨rest, rfl⟩ : ∃ rest, args = ascii "pwd" :: rest := by
      cases args with
      | nil => cases hpwd
      | cons name rest =>
        obtain rfl := Option.some.inj hpwd
        exact ⟨rest, rfl⟩
    obtain ⟨buffer, hprints⟩ := pwd_of_returns hreturns
    rw [hprints]
  · rfl

/-- So many rounds. -/
def runOf (memory : Int32 → Memory) (rounds : Nat → Round) (n : Nat) : Prog Vars Call Unit :=
  forEach (iterationIn memory) ((List.range n).map rounds)

/-- The token vectors that are executed in so many rounds. -/
def executedBy (memory : Int32 → Memory) (stdin : InputStream) (rounds : Nat → Round) (n : Nat) :
    List (List (List UInt8)) := executed ((runOf memory rounds n).calls (initial stdin))

/-- The variables after so many rounds. -/
def stateAfter (memory : Int32 → Memory) (stdin : InputStream) (rounds : Nat → Round) (n : Nat) : Vars :=
  (runOf memory rounds n).final (initial stdin)

theorem runOf_succ (memory : Int32 → Memory) (stdin : InputStream) (rounds : Nat → Round) (n : Nat) :
    stateAfter memory stdin rounds (n + 1) =
        (iterationIn memory (rounds n)).final (stateAfter memory stdin rounds n) ∧
      executedBy memory stdin rounds (n + 1) = executedBy memory stdin rounds n ++
        executed ((iterationIn memory (rounds n)).calls (stateAfter memory stdin rounds n)) := by
  unfold stateAfter executedBy runOf
  rw [List.range_succ, List.map_append, final_forEach_append, calls_forEach_append, executed_append]
  refine ⟨rfl, ?_⟩
  rw [List.map_singleton, calls_forEach_cons, calls_forEach_nil, List.append_nil]

theorem runOf_succ_of_running (hv : (stateAfter memory stdin rounds n).phase = .running) :
    stateAfter memory stdin rounds (n + 1) =
        (bodyIn memory (rounds n)).final (stateAfter memory stdin rounds n) ∧
      executedBy memory stdin rounds (n + 1) = executedBy memory stdin rounds n ++
        executed ((bodyIn memory (rounds n)).calls (stateAfter memory stdin rounds n)) := by
  obtain ⟨hstate, hexecuted⟩ := runOf_succ memory stdin rounds n
  rw [hstate, hexecuted]
  constructor <;> simp [iterationIn, hv]

/-- A shell that has ended does nothing more. -/
theorem runOf_of_ended (hend : (stateAfter memory stdin rounds k).phase = .ended) (hn : k ≤ n) :
    (stateAfter memory stdin rounds n).phase = .ended ∧
      executedBy memory stdin rounds n = executedBy memory stdin rounds k := by
  induction n, hn using Nat.le_induction with
  | base => exact ⟨hend, rfl⟩
  | succ n _ ih =>
    obtain ⟨hstate, hexecuted⟩ := runOf_succ memory stdin rounds n
    rw [hstate, hexecuted, ih.2]
    constructor <;> simp [iterationIn, ih.1, executed]

/-- What has been executed stays. -/
theorem executedBy_prefix {m : Nat} (h : m ≤ n) :
    executedBy memory stdin rounds m <+: executedBy memory stdin rounds n := by
  induction n, h using Nat.le_induction with
  | base => exact List.prefix_rfl
  | succ n _ ih =>
    rw [(runOf_succ memory stdin rounds n).2]
    exact ih.trans (List.prefix_append ..)

/-- A round whose line fits executes it. -/
theorem runOf_succ_of_fits (hphase : (stateAfter memory stdin rounds n).phase = .running)
    (hstdin : (stateAfter memory stdin rounds n).stdin = stdinAt stdin rounds n)
    (hfits : Fits (lineRead stdin rounds n)) :
    (stateAfter memory stdin rounds (n + 1)).phase =
        fate (rounds n) (tokenize (lineRead stdin rounds n)) ∧
      (stateAfter memory stdin rounds (n + 1)).stdin = stdinAt stdin rounds (n + 1) ∧
      executedBy memory stdin rounds (n + 1) =
        executedBy memory stdin rounds n ++ [tokenize (lineRead stdin rounds n)] := by
  obtain ⟨hstate, hmore⟩ := runOf_succ_of_running hphase
  have hline : (readline (stateAfter memory stdin rounds n).stdin.text).1 = lineRead stdin rounds n := by
    rw [hstdin, lineRead]
  obtain ⟨hfinal, hcalls⟩ := bodyIn_of_fits memory (rounds n) (hline ▸ hfits)
  obtain ⟨hbody, hleaves⟩ := final_body (rounds n) _ hphase
  rw [hstate, hmore, hfinal, hcalls, hbody, hleaves, executed_body, hline, hstdin]
  exact ⟨rfl, rfl, rfl⟩

/-- The first lines fit and leave the shell running. -/
def GoesOn (stdin : InputStream) (rounds : Nat → Round) (n : Nat) : Prop :=
  ∀ j < n, Fits (lineRead stdin rounds j) ∧
    fate (rounds j) (tokenize (lineRead stdin rounds j)) = .running

/-- So long the rounds execute the lines that the stream has for them. -/
theorem running_of_goesOn (memory : Int32 → Memory) (h : GoesOn stdin rounds n) :
    (stateAfter memory stdin rounds n).phase = .running ∧
      (stateAfter memory stdin rounds n).stdin = stdinAt stdin rounds n ∧
      executedBy memory stdin rounds n =
        (List.range n).map fun j => tokenize (lineRead stdin rounds j) := by
  induction n with
  | zero => exact ⟨rfl, rfl, rfl⟩
  | succ n ih =>
    obtain ⟨hphase, hstdin, hexecuted⟩ := ih fun j hj => h j (Nat.lt_succ_of_lt hj)
    obtain ⟨hfits, hfate⟩ := h n (Nat.lt_succ_self n)
    obtain ⟨hphase', hstdin', hmore⟩ := runOf_succ_of_fits hphase hstdin hfits
    rw [hphase', hmore, hfate, hexecuted, List.range_succ, List.map_append]
    exact ⟨rfl, hstdin', rfl⟩

/-- And the next round executes the next one, if it fits. -/
theorem executedBy_succ_of_goesOn (memory : Int32 → Memory) (h : GoesOn stdin rounds k)
    (hfits : Fits (lineRead stdin rounds k)) :
    (stateAfter memory stdin rounds (k + 1)).phase =
        fate (rounds k) (tokenize (lineRead stdin rounds k)) ∧
      executedBy memory stdin rounds (k + 1) =
        (List.range (k + 1)).map fun j => tokenize (lineRead stdin rounds j) := by
  obtain ⟨hphase, hstdin, hexecuted⟩ := running_of_goesOn memory h
  obtain ⟨hphase', -, hmore⟩ := runOf_succ_of_fits hphase hstdin hfits
  rw [hmore, hexecuted, List.range_succ, List.map_append]
  exact ⟨hphase', rfl⟩

/-- The shell ends at a line that does not fit, and has not executed it. -/
theorem executedBy_of_not_fits (h : GoesOn stdin rounds k) (hfits : ¬ Fits (lineRead stdin rounds k))
    (hn : k < n) : executedBy memory stdin rounds n =
      (List.range k).map fun j => tokenize (lineRead stdin rounds j) := by
  obtain ⟨hphase, hstdin, hexecuted⟩ := running_of_goesOn memory h
  obtain ⟨hstate, hmore⟩ := runOf_succ_of_running hphase
  have hline : (readline (stateAfter memory stdin rounds k).stdin.text).1 = lineRead stdin rounds k := by
    rw [hstdin, lineRead]
  obtain ⟨hfinal, hnone⟩ := bodyIn_of_not_fits memory (rounds k) (hline ▸ hfits)
  rw [← hstate] at hfinal
  rw [(runOf_of_ended hfinal hn).2, hmore, hnone, hexecuted, List.append_nil]

/-! ## The dispatch -/

/-- A vector goes to the builtin of that name, if there is one, and otherwise to `bin_exec`; without
tokens nothing runs. -/
theorem execute_dispatch (r : Round) :
    execute r [] = (pure (.status 1) : Prog Vars Call Result) ∧
    (∀ name args handler, (name, handler) ∈ builtins →
      execute r (name :: args) = handler r (name :: args)) ∧
    ∀ name args, name ∉ builtins.map Prod.fst →
      execute r (name :: args) = binExec r (name :: args) := by
  refine ⟨rfl, fun name args handler hmem => ?_, fun name args hnot => ?_⟩
  · simp only [builtins, List.mem_cons, List.not_mem_nil, or_false, Prod.mk.injEq] at hmem
    obtain ⟨rfl, rfl⟩ | ⟨rfl, rfl⟩ | ⟨rfl, rfl⟩ | ⟨rfl, rfl⟩ := hmem <;> rfl
  · have hlookup : builtins.lookup name = none := by
      rw [List.lookup_eq_none_iff]
      intro p hp
      rw [bne_iff_ne]
      rintro rfl
      exact hnot (List.mem_map_of_mem hp)
    exact execute_command r args hlookup

/-! ## The typed lines -/

theorem lineAt_eq_getElem {j : Nat} (hj : j < (input.splitOn 10).length) :
    lineAt input j = (input.splitOn 10)[j] := by
  rw [lineAt, List.getD_eq_getElem?_getD, List.getElem?_eq_getElem hj, Option.getD_some]

theorem exitLine_lt (hexit : ∃ line ∈ input.splitOn 10, isExit line = true) :
    exitLine input < (input.splitOn 10).length := List.findIdx_lt_length_of_exists hexit

/-- The lines of the first rounds are the typed lines. -/
theorem typedLines_eq (hexit : ∃ line ∈ input.splitOn 10, isExit line = true) :
    typedLines input = (List.range (exitLine input + 1)).map (lineAt input) := by
  have hlt := exitLine_lt hexit
  apply List.ext_getElem
  · simp only [typedLines, List.length_map, List.length_range, List.length_take]
    omega
  · intro j hj hj'
    rw [List.length_map, List.length_range] at hj'
    simp only [typedLines, List.getElem_take, List.getElem_map, List.getElem_range,
      lineAt_eq_getElem (show j < (input.splitOn 10).length by omega)]

theorem fate_exitLine (hexit : ∃ line ∈ input.splitOn 10, isExit line = true) (r : Round) :
    fate r (lineWords (lineAt input (exitLine input))) = .ended := by
  have hfirst : isExit (lineAt input (exitLine input)) = true := by
    rw [lineAt_eq_getElem (exitLine_lt hexit)]
    exact List.findIdx_getElem
  rw [fate, if_pos (of_decide_eq_true hfirst)]

theorem fate_before_exitLine (hexit : ∃ line ∈ input.splitOn 10, isExit line = true)
    (hk : k < exitLine input) (hreturns : Returns r (lineWords (lineAt input k))) :
    fate r (lineWords (lineAt input k)) = .running := by
  have hnot : ¬ isExit (lineAt input k) = true := by
    rw [lineAt_eq_getElem (hk.trans (exitLine_lt hexit)), List.not_of_lt_findIdx hk]
    exact Bool.false_ne_true
  exact fate_of_returns (fun h => hnot (decide_eq_true h)) hreturns

/-- The line that the stream has for the round `j` fits, and has the words of the line `j`. -/
def ReadsWords (stdin : InputStream) (rounds : Nat → Round) (j : Nat) : Prop :=
  Fits (lineRead stdin rounds j) ∧
    tokenize (lineRead stdin rounds j) = lineWords (lineAt stdin.text j)

section Typed

variable (hexit : ∃ line ∈ stdin.text.splitOn 10, isExit line = true)
  (hreturns : ∀ j < exitLine stdin.text, Returns (rounds j) (lineWords (lineAt stdin.text j)))

include hexit hreturns

theorem goesOn_of_readsWords (hk : k ≤ exitLine stdin.text)
    (h : ∀ j < k, ReadsWords stdin rounds j) : GoesOn stdin rounds k := by
  intro j hj
  obtain ⟨hfits, hwords⟩ := h j hj
  rw [hwords]
  exact ⟨hfits, fate_before_exitLine hexit (by omega) (hreturns j (by omega))⟩

/-- What has been executed tells that a line was read. -/
theorem readsWords_of_executed (hk : k ≤ exitLine stdin.text) (hn : exitLine stdin.text < n)
    (hprev : ∀ j < k, ReadsWords stdin rounds j)
    (hall : executedBy memory stdin rounds n = (typedLines stdin.text).map lineWords) :
    ReadsWords stdin rounds k := by
  have hgoes := goesOn_of_readsWords hexit hreturns hk hprev
  have htyped := typedLines_eq hexit
  rw [htyped] at hall
  by_cases hfits : Fits (lineRead stdin rounds k)
  · refine ⟨hfits, ?_⟩
    have hpre : ((List.range (k + 1)).map fun j => tokenize (lineRead stdin rounds j)) <+:
        ((List.range (exitLine stdin.text + 1)).map (lineAt stdin.text)).map lineWords := by
      rw [← (executedBy_succ_of_goesOn memory hgoes hfits).2, ← hall]
      exact executedBy_prefix (by omega)
    have hget := hpre.getElem (show k < _ by simp)
    simpa using hget
  · rw [executedBy_of_not_fits hgoes hfits (by omega)] at hall
    have hlen := congrArg List.length hall
    simp only [List.length_map, List.length_range] at hlen
    omega

/-- The shell executes the typed lines if and only if it reads the words of each. -/
theorem executedBy_iff (hn : exitLine stdin.text < n) (memory : Int32 → Memory) :
    executedBy memory stdin rounds n = (typedLines stdin.text).map lineWords ↔
      ∀ j ≤ exitLine stdin.text, ReadsWords stdin rounds j := by
  constructor
  · intro hall j hj
    induction j using Nat.strong_induction_on with
    | h j ih =>
      exact readsWords_of_executed hexit hreturns hj hn (fun i hi => ih i hi (by omega)) hall
  · intro h
    have hgoes := goesOn_of_readsWords hexit hreturns (Nat.le_refl _) fun j hj => h j (Nat.le_of_lt hj)
    obtain ⟨hfits, hwords⟩ := h _ (Nat.le_refl _)
    obtain ⟨hend, hexecuted⟩ := executedBy_succ_of_goesOn memory hgoes hfits
    rw [hwords, fate_exitLine hexit] at hend
    rw [(runOf_of_ended hend hn).2, hexecuted, typedLines_eq hexit, List.map_map]
    exact List.map_congr_left fun j hj => (h j (by rw [List.mem_range] at hj; omega)).2

end Typed

/-- Where the lines are read once, it reads the words of those that fit. -/
theorem readsWords_iff_fits (hnul : 0 ∉ stdin.text)
    (hexit : ∃ line ∈ stdin.text.splitOn 10, isExit line = true)
    (honce : ReadOnce stdin rounds (exitLine stdin.text)) :
    (∀ j ≤ exitLine stdin.text, ReadsWords stdin rounds j) ↔
      ∀ line ∈ typedLines stdin.text, Fits line := by
  have hread {j : Nat} (hj : j ≤ exitLine stdin.text) :
      ReadsWords stdin rounds j ↔ Fits (lineAt stdin.text j) := by
    rw [ReadsWords, honce.lineRead_eq hj, and_iff_left (tokenize_lineAt hnul j)]
  rw [typedLines_eq hexit, List.forall_mem_map]
  constructor
  · intro h j hj
    have hle : j ≤ exitLine stdin.text := Nat.le_of_lt_succ (List.mem_range.1 hj)
    exact (hread hle).1 (h j hle)
  · intro h j hj
    exact (hread hj).2 (h j (List.mem_range.2 (Nat.lt_succ_of_le hj)))

/-- The shell executes the words of the lines up to and including the first one that begins with `exit`,
one line after another, and nothing after it, each vector with the handler of its first word. -/
def ExecutesTyped (memory : Int32 → Memory) (stdin : InputStream) (rounds : Nat → Round) (n : Nat) :
    Prop :=
  executedBy memory stdin rounds n = (typedLines stdin.text).map lineWords ∧
    ∀ r, execute r [] = (pure (.status 1) : Prog Vars Call Result) ∧
      (∀ name args handler, (name, handler) ∈ builtins →
        execute r (name :: args) = handler r (name :: args)) ∧
      ∀ name args, name ∉ builtins.map Prod.fst →
        execute r (name :: args) = binExec r (name :: args)

/-- From an input without zero bytes that has a line that begins with `exit`, with handlers that come
back: the shell executes the typed lines if and only if every one of them has its words, and is shorter
than `2 ^ 31 - 1024` bytes, as the stream has it for its round. Where no child makes the shell read
anything again, this means that each of the lines is that short. -/
theorem executes_typed_lines_iff (hnul : 0 ∉ stdin.text)
    (hexit : ∃ line ∈ stdin.text.splitOn 10, isExit line = true)
    (hreturns : ∀ j < exitLine stdin.text, Returns (rounds j) (lineWords (lineAt stdin.text j)))
    (hn : exitLine stdin.text < n) (memory : Int32 → Memory) :
    (ExecutesTyped memory stdin rounds n ↔
      ∀ j ≤ exitLine stdin.text, (lineRead stdin rounds j).length < 2 ^ 31 - 1024 ∧
        tokenize (lineRead stdin rounds j) = lineWords (lineAt stdin.text j)) ∧
    (ReadOnce stdin rounds (exitLine stdin.text) →
      (ExecutesTyped memory stdin rounds n ↔
        ∀ line ∈ typedLines stdin.text, line.length < 2 ^ 31 - 1024)) := by
  have hexecutes : ExecutesTyped memory stdin rounds n ↔
      ∀ j ≤ exitLine stdin.text, ReadsWords stdin rounds j := by
    rw [ExecutesTyped, and_iff_left execute_dispatch]
    exact executedBy_iff hexit hreturns hn memory
  exact ⟨hexecutes, fun honce => hexecutes.trans (readsWords_iff_fits hnul hexit honce)⟩

/-- A command with a byte above `0x7f`, a line without tokens, and a line behind `exit`. -/
def session : List UInt8 := ascii "ls\t-l " ++ 0xff :: ascii "\n\r\nexit 0\npwd\n"

theorem session_executed : executedBy (fun _ _ => 0) (script session) (fun _ => smooth) 7 =
    [[ascii "ls", ascii "-l", [0xff]], [], [ascii "exit", ascii "0"]] := by
  have hnul : 0 ∉ (script session).text := by decide
  have hexit : ∃ line ∈ (script session).text.splitOn 10, isExit line = true :=
    ⟨ascii "exit 0", by decide, by decide⟩
  have hreturns : ∀ j < exitLine (script session).text,
      Returns smooth (lineWords (lineAt (script session).text j)) := fun j _ => returns_of_pwd rfl _
  have hn : exitLine (script session).text < 7 := by decide
  have hshort : ∀ line ∈ typedLines (script session).text, line.length < 2 ^ 31 - 1024 := by decide
  have hiff := (executes_typed_lines_iff hnul hexit hreturns hn (fun _ _ => 0)).2
    (smooth_readOnce _ _)
  rw [(hiff.2 hshort).1]
  decide

/-- An `exit` with spaces behind it. -/
def paddedExit (spaces : Nat) : List UInt8 := ascii "exit" ++ 32 :: List.replicate spaces 32

theorem mem_paddedExit {spaces : Nat} {b : UInt8} (h : b ∈ paddedExit spaces) :
    b ∈ ascii "exit" ∨ b = 32 := by
  rcases List.mem_append.1 h with h | h
  · exact Or.inl h
  · rcases List.mem_cons.1 h with h | h
    · exact Or.inr h
    · exact Or.inr (List.eq_of_mem_replicate h)

theorem splitOn_paddedExit (spaces : Nat) : (paddedExit spaces).splitOn 10 = [paddedExit spaces] := by
  have hnewline : 10 ∉ paddedExit spaces := fun h => by
    rcases mem_paddedExit h with h | h <;> revert h <;> decide
  rw [splitOn_eq, readline_of_not_mem hnewline, if_neg hnewline]

theorem isExit_paddedExit (spaces : Nat) : isExit (paddedExit spaces) = true := by
  have hwords : ∃ rest, lineWords (paddedExit spaces) = ascii "exit" :: rest :=
    ⟨_, words_cons_of_not (a := 101) rfl⟩
  obtain ⟨rest, hrest⟩ := hwords
  rw [isExit, hrest]
  rfl

/-- With `2 ^ 31 - 1029` spaces or more behind the first one the line does not fit, and the shell ends
without having executed anything. -/
theorem long_line_not_executed : ¬ ∀ (memory : Int32 → Memory) (stdin : InputStream)
    (rounds : Nat → Round) (n : Nat), 0 ∉ stdin.text →
    (∃ line ∈ stdin.text.splitOn 10, isExit line = true) →
    (∀ j < exitLine stdin.text, Returns (rounds j) (lineWords (lineAt stdin.text j))) →
    exitLine stdin.text < n → executedBy memory stdin rounds n = (typedLines stdin.text).map lineWords := by
  intro h
  obtain ⟨spaces, hspaces⟩ : ∃ spaces, spaces = 2 ^ 31 - 1029 := ⟨_, rfl⟩
  obtain ⟨stdin, hstdin⟩ : ∃ stdin : InputStream, stdin.text = paddedExit spaces :=
    ⟨script (paddedExit spaces), rfl⟩
  have hlines : stdin.text.splitOn 10 = [paddedExit spaces] := by
    rw [hstdin, splitOn_paddedExit]
  have hnul : 0 ∉ stdin.text := fun h0 => by
    rcases mem_paddedExit (hstdin ▸ h0) with h | h <;> revert h <;> decide
  have hexit : ∃ line ∈ stdin.text.splitOn 10, isExit line = true :=
    ⟨paddedExit spaces, by rw [hlines]; exact List.mem_singleton_self _, isExit_paddedExit spaces⟩
  have hzero : exitLine stdin.text = 0 := by
    rw [exitLine, hlines, List.findIdx_cons, isExit_paddedExit]
    rfl
  have hreturns : ∀ j < exitLine stdin.text, Returns smooth (lineWords (lineAt stdin.text j)) :=
    fun j _ => returns_of_pwd rfl _
  have hn : exitLine stdin.text < 1 := by
    rw [hzero]
    decide
  have hall := (readsWords_iff_fits hnul hexit (smooth_readOnce stdin _)).1
    ((executedBy_iff hexit hreturns hn (fun _ _ => 0)).1
      (h _ stdin (fun _ => smooth) 1 hnul hexit hreturns hn))
  have hmem : paddedExit spaces ∈ typedLines stdin.text := by
    rw [typedLines, hlines, hzero]
    exact List.mem_singleton_self _
  have hfits := hall _ hmem
  rw [Fits, paddedExit, List.length_append, List.length_cons, List.length_replicate] at hfits
  have hlen : (ascii "exit").length = 4 := rfl
  omega

end SystemsProgramming.MiniShell
