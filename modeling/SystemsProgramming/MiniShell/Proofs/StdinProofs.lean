import SystemsProgramming.MiniShell.Shell

/-!
# Which lines the shell is given

The shell takes the lines of its standard input one after another, as long as its children leave the offset
alone. A command that cannot be executed sets it back, by what is unread in the buffer: the shell goes on
with the buffer, and behind that it reads the same lines again.
-/

namespace SystemsProgramming.MiniShell

open Foundations

/-! ## The lines of the input -/

/-- The input behind the first `k` lines. -/
def rest (input : List UInt8) : Nat → List UInt8
  | 0 => input
  | k + 1 => (readline (rest input k)).2

/-- The line `k` of the input; there is nothing on a line behind the last. -/
def lineAt (input : List UInt8) (k : Nat) : List UInt8 := (input.splitOn 10).getD k []

theorem splitOn_eq (input : List UInt8) :
    input.splitOn 10 =
      (readline input).1 :: (if 10 ∈ input then (readline input).2.splitOn 10 else []) := by
  induction input with
  | nil => simp [readline, List.splitOn]
  | cons c input ih =>
    unfold readline
    rw [List.splitOn, List.splitOnP_cons_eq_if_modifyHead, ← List.splitOn]
    by_cases hc : c = 10
    · subst hc
      simp
    · have hc' : ¬ 10 = c := fun h => hc h.symm
      rw [ih]
      simp [hc, hc']

theorem readline_of_not_mem {input : List UInt8} (h : 10 ∉ input) : readline input = (input, []) := by
  induction input with
  | nil => rfl
  | cons c input ih =>
    rw [List.mem_cons, not_or] at h
    unfold readline
    rw [if_neg (Ne.symm h.1), ih h.2]

theorem readline_snd (input : List UInt8) :
    (readline input).2 = input.drop ((readline input).1.length + 1) := by
  induction input with
  | nil => rfl
  | cons c input ih =>
    unfold readline
    split
    · rfl
    · rw [ih, List.length_cons, List.drop_succ_cons]

theorem readline_append {line : List UInt8} (h : 10 ∉ line) (rest : List UInt8) :
    readline (line ++ 10 :: rest) = (line, rest) := by
  induction line with
  | nil => rfl
  | cons c line ih =>
    rw [List.mem_cons, not_or] at h
    rw [List.cons_append, readline, if_neg (Ne.symm h.1), ih h.2]

theorem rest_succ (input : List UInt8) (k : Nat) : rest input (k + 1) = rest (readline input).2 k := by
  induction k with
  | zero => rfl
  | succ k ih =>
    show (readline (rest input (k + 1))).2 = (readline (rest (readline input).2 k)).2
    rw [ih]

/-- The round `k` reads the line `k`. -/
theorem readline_rest (input : List UInt8) (k : Nat) :
    (readline (rest input k)).1 = lineAt input k := by
  unfold lineAt
  induction k generalizing input with
  | zero =>
    rw [splitOn_eq]
    rfl
  | succ k ih =>
    rw [rest_succ, ih, splitOn_eq input, List.getD_cons_succ]
    split
    · rfl
    · next h =>
      rw [readline_of_not_mem h]
      cases k <;> rfl

/-! ## What the children leave -/

/-- What the child of a command leaves of the standard input. -/
def childLeaves (command : Command) (stdin : InputStream) : InputStream :=
  match command with
  | .forkFails => stdin
  | .execFails => stdin.exitCopy
  | .ran _ offset _ => offset.elim stdin stdin.seek

/-- What `execute` leaves of it: a builtin has no child. -/
def executeLeaves (r : Round) (args : List (List UInt8)) (stdin : InputStream) : InputStream :=
  match args with
  | [] => stdin
  | name :: _ => if (builtins.lookup name).isNone then childLeaves r.command stdin else stdin

/-- The standard input in front of the line of the round `k`. -/
def stdinAt (stdin : InputStream) (rounds : Nat → Round) : Nat → InputStream
  | 0 => stdin
  | k + 1 =>
    let stdin := stdinAt stdin rounds k
    executeLeaves (rounds k) (tokenize (readline stdin.text).1) (behindLine stdin)

/-- The line that the stream has for the round `k`. -/
def lineRead (stdin : InputStream) (rounds : Nat → Round) (k : Nat) : List UInt8 :=
  (readline (stdinAt stdin rounds k).text).1

/-! ## What is read once -/

/-- The standard input behind the first `k` lines, if nobody else moves its offset. -/
def behindLines (stdin : InputStream) : Nat → InputStream
  | 0 => stdin
  | k + 1 => behindLine (behindLines stdin k)

/-- The child leaves the offset where it is: one that calls `exit` has nothing unread in its copy of the
stream, or the offset cannot be set back so far. -/
def OffsetStays (command : Command) (stdin : InputStream) : Prop :=
  match command with
  | .forkFails => True
  | .execFails => stdin.seekable = true → stdin.unread.length ≤ stdin.offset → stdin.unread = []
  | .ran _ offset _ => ∀ o ∈ offset, o = stdin.offset

/-- The tokens are those of a command, not of a builtin. -/
def IsCommand (args : List (List UInt8)) : Prop :=
  ∃ name, args.head? = some name ∧ builtins.lookup name = none

/-- The lines of the standard input up to the line `k` are read once, one after another: no command
before it moves the offset, unless the line `k` is in the buffer then. -/
def ReadOnce (stdin : InputStream) (rounds : Nat → Round) (k : Nat) : Prop :=
  ∀ j < k, (IsCommand (tokenize (lineAt stdin.text j)) →
      OffsetStays (rounds j).command (behindLines stdin (j + 1))) ∨
    k - j ≤ (behindLines stdin (j + 1)).unread.count 10

/-- The bytes of the line, and the newline or the end of the file behind it, are what the calls of `getchar`
return that `behindLine` makes. -/
theorem getchar_line (stdin : InputStream) :
    (∀ i < (readline stdin.text).1.length,
      (stdin.skip i).getchar.1 = (readline stdin.text).1[i]? ∧ (stdin.skip i).getchar.1 ≠ some 10) ∧
    ((stdin.skip (readline stdin.text).1.length).getchar.1 = some 10 ∨
      (stdin.skip (readline stdin.text).1.length).getchar.1 = none) := by
  simp only [InputStream.getchar_skip]
  generalize stdin.text = input
  induction input with
  | nil => exact ⟨fun i hi => absurd hi (Nat.not_lt_zero i), Or.inr rfl⟩
  | cons c input ih =>
    unfold readline
    split
    · rename_i hc
      exact ⟨fun i hi => absurd hi (Nat.not_lt_zero i), Or.inl (congrArg some hc)⟩
    · rename_i hc
      obtain ⟨hline, hend⟩ := ih
      refine ⟨fun i hi => ?_, hend⟩
      cases i with
      | zero => exact ⟨rfl, fun h => hc (Option.some.inj h)⟩
      | succ i => exact hline i (Nat.lt_of_succ_lt_succ hi)

theorem text_behindLine (stdin : InputStream) : (behindLine stdin).text = (readline stdin.text).2 := by
  rw [behindLine, InputStream.text_skip, readline_snd]

theorem text_behindLines (stdin : InputStream) (k : Nat) :
    (behindLines stdin k).text = rest stdin.text k := by
  induction k with
  | zero => rfl
  | succ k ih => rw [behindLines, text_behindLine, ih, rest]

/-- A line that is in the buffer. -/
theorem behindLine_of_unread {s : InputStream} {line more : List UInt8} (h : s.unread = line ++ 10 :: more)
    (hline : 10 ∉ line) : (readline s.text).1 = line ∧ behindLine s = { s with unread := more } := by
  have hread : (readline s.text).1 = line := by
    rw [InputStream.text, h, List.append_assoc, List.cons_append, readline_append hline]
  refine ⟨hread, ?_⟩
  rw [behindLine, hread, s.skip_of_le (by rw [h]; simp), h, List.append_cons, List.drop_left' (by simp)]

theorem executeLeaves_command (r : Round) {name : List UInt8} (h : builtins.lookup name = none)
    (args : List (List UInt8)) (stdin : InputStream) :
    executeLeaves r (name :: args) stdin = childLeaves r.command stdin := by
  rw [executeLeaves, h]
  rfl

theorem childLeaves_of_stays {command : Command} {stdin : InputStream} (h : OffsetStays command stdin) :
    childLeaves command stdin = stdin := by
  cases command with
  | forkFails => rfl
  | execFails => exact stdin.exitCopy_eq_self_iff.2 h
  | ran output offset signalled =>
    cases offset with
    | none => rfl
    | some o =>
      obtain rfl := h o rfl
      rfl

theorem executeLeaves_of_stays {r : Round} {args : List (List UInt8)} {stdin : InputStream}
    (h : IsCommand args → OffsetStays r.command stdin) : executeLeaves r args stdin = stdin := by
  unfold executeLeaves
  cases args with
  | nil => rfl
  | cons name args =>
    simp only
    split
    · rename_i hlookup
      exact childLeaves_of_stays (h ⟨name, rfl, Option.isNone_iff_eq_none.1 hlookup⟩)
    · rfl

/-- Whatever a child does to the offset, the buffer of the shell has the same bytes. -/
theorem unread_executeLeaves (r : Round) (args : List (List UInt8)) (stdin : InputStream) :
    (executeLeaves r args stdin).unread = stdin.unread := by
  have hchild (command : Command) : (childLeaves command stdin).unread = stdin.unread := by
    cases command with
    | forkFails => rfl
    | execFails => exact stdin.unread_exitCopy
    | ran output offset signalled => cases offset <;> rfl
  unfold executeLeaves
  cases args with
  | nil => rfl
  | cons name args =>
    simp only
    split
    · exact hchild r.command
    · rfl

/-- The stream is where it is without the children, or the lines that are wanted are in its buffer. -/
def InPlace (lines : Nat) (s u : InputStream) : Prop :=
  s = u ∨ s.unread = u.unread ∧ lines ≤ u.unread.count 10

section InPlace

variable {s u : InputStream} {lines : Nat}

/-- The next line is the same, and so is what the buffer has behind it. -/
theorem InPlace.readline_eq (h : InPlace (lines + 1) s u) :
    (readline s.text).1 = (readline u.text).1 ∧ InPlace lines (behindLine s) (behindLine u) := by
  rcases h with rfl | ⟨hunread, hcount⟩
  · exact ⟨rfl, Or.inl rfl⟩
  · have hmem : 10 ∈ u.unread := List.count_pos_iff.1 (by omega)
    obtain ⟨line, more, heq, hline⟩ := List.eq_append_cons_of_mem hmem
    obtain ⟨hs, hsmore⟩ := behindLine_of_unread (hunread.trans heq) hline
    obtain ⟨hu, humore⟩ := behindLine_of_unread heq hline
    rw [heq, List.count_append, List.count_eq_zero.2 hline, List.count_cons_self] at hcount
    rw [hsmore, humore]
    exact ⟨hs.trans hu.symm, Or.inr ⟨rfl, by show lines ≤ more.count 10; omega⟩⟩

theorem InPlace.executeLeaves {r : Round} {args : List (List UInt8)} (h : InPlace lines s u)
    (hstays : (IsCommand args → OffsetStays r.command u) ∨ lines ≤ u.unread.count 10) :
    InPlace lines (executeLeaves r args s) u := by
  rcases hstays with hstays | hcount
  · rcases h with rfl | ⟨hunread, hcount⟩
    · exact Or.inl (executeLeaves_of_stays hstays)
    · exact Or.inr ⟨(unread_executeLeaves r args s).trans hunread, hcount⟩
  · refine Or.inr ⟨(unread_executeLeaves r args s).trans ?_, hcount⟩
    rcases h with rfl | ⟨hunread, -⟩
    · rfl
    · exact hunread

end InPlace

variable {stdin : InputStream} {rounds : Nat → Round} {k : Nat}

theorem ReadOnce.inPlace (h : ReadOnce stdin rounds k) {j : Nat} (hj : j ≤ k) :
    InPlace (k + 1 - j) (stdinAt stdin rounds j) (behindLines stdin j) := by
  induction j with
  | zero => exact Or.inl rfl
  | succ j ih =>
    have hlines : k + 1 - j = k + 1 - (j + 1) + 1 := by omega
    have hplace := ih (Nat.le_of_succ_le hj)
    rw [hlines] at hplace
    obtain ⟨hline, hrest⟩ := hplace.readline_eq
    rw [text_behindLines, readline_rest] at hline
    have hstays := h j hj
    rw [show k - j = k + 1 - (j + 1) by omega] at hstays
    rw [stdinAt, hline]
    exact hrest.executeLeaves hstays

/-- So long the round `j` has the line `j`. -/
theorem ReadOnce.lineRead_eq (h : ReadOnce stdin rounds k) {j : Nat} (hj : j ≤ k) :
    lineRead stdin rounds j = lineAt stdin.text j := by
  have hlines : k + 1 - j = k - j + 1 := by omega
  have hplace := h.inPlace hj
  rw [hlines] at hplace
  rw [lineRead, hplace.readline_eq.1, text_behindLines, readline_rest]

/-- What the system answers when every call succeeds and prints nothing. -/
def smooth : Round where
  handed := fun _ => 0
  chdir := true
  getcwd := [⟨some (ascii "/"), .other⟩]
  garbage := []
  command := .ran [] none false

/-- A file with these bytes, which is read in blocks of 4096. -/
def script (content : List UInt8) : InputStream := .opened content 4096 (by decide)

theorem smooth_readOnce (stdin : InputStream) (k : Nat) : ReadOnce stdin (fun _ => smooth) k :=
  fun _ _ => Or.inl fun _ _ ho => by cases ho

/-! ## Lines that are read again -/

/-- A command with spaces behind it. -/
def commandLine (spaces : Nat) : List UInt8 := 97 :: List.replicate spaces 32

/-- Three commands that fill the first block, and an `exit` behind it. -/
def fullBlock (spaces : Nat) : InputStream :=
  .opened (commandLine 0 ++ 10 :: (commandLine spaces ++ 10 :: (commandLine 0 ++ 10 :: ascii "exit\n")))
    (spaces + 6) (Nat.succ_pos _)

/-- There is no such command. -/
def notFound : Round := { smooth with command := .execFails }

theorem mem_commandLine {spaces : Nat} {b : UInt8} (h : b ∈ commandLine spaces) : b = 97 ∨ b = 32 :=
  (List.mem_cons.1 h).imp id List.eq_of_mem_replicate

theorem newline_not_mem (spaces : Nat) : 10 ∉ commandLine spaces := fun h => by
  rcases mem_commandLine h with h | h <;> cases h

/-- The first token is that of a command. -/
theorem tokenize_commandLine (spaces : Nat) : ∃ args, tokenize (commandLine spaces) = [97] :: args := by
  have hnul : 0 ∉ commandLine spaces := fun h => by
    rcases mem_commandLine h with h | h <;> cases h
  have hskip : (commandLine spaces).dropWhile (· ∈ strtokDelim) = commandLine spaces := rfl
  have htoken : (commandLine spaces).takeWhile (· ∉ strtokDelim) = [97] := by
    cases spaces <;> rfl
  have hstrtok : ∃ rest, strtok (commandLine spaces) = some ([97], rest) := by
    rw [strtok, hskip]
    exact ⟨_, congrArg (fun token => some (token, _)) htoken⟩
  obtain ⟨rest, hrest⟩ := hstrtok
  have hlen : (commandLine spaces).length = (List.replicate spaces 32 : List UInt8).length + 1 := rfl
  rw [tokenize, cString_of_not_mem hnul, hlen, tokens, hrest]
  exact ⟨_, rfl⟩

/-- A round that reads such a line from the buffer: the child of the command sets the offset back. -/
theorem executeLeaves_notFound {s : InputStream} {spaces : Nat} {more : List UInt8}
    (h : s.unread = commandLine spaces ++ 10 :: more) :
    executeLeaves notFound (tokenize (readline s.text).1) (behindLine s) =
      InputStream.exitCopy { s with unread := more } := by
  obtain ⟨hline, hbehind⟩ := behindLine_of_unread h (newline_not_mem spaces)
  obtain ⟨args, hargs⟩ := tokenize_commandLine spaces
  rw [hline, hbehind, hargs, executeLeaves_command notFound rfl]
  rfl

section FullBlock

variable (n : Nat)

/-- The stream in the middle of the block, with the offset elsewhere. -/
def inBlock (offset : Nat) (unread : List UInt8) : InputStream :=
  { fullBlock n with offset := offset, unread := unread }

/-- The three commands. -/
def block : List UInt8 := commandLine 0 ++ 10 :: (commandLine n ++ 10 :: (commandLine 0 ++ [10]))

theorem block_length : (block n).length = n + 6 := by
  simp [block, commandLine]

theorem fill_fullBlock : (fullBlock n).fill = inBlock n (n + 6) (block n) := by
  have hcontent : (fullBlock n).content = block n ++ ascii "exit\n" := by
    simp [fullBlock, InputStream.opened, block]
  have hdata : ((fullBlock n).content.drop (fullBlock n).offset).take (n + 6) = block n := by
    rw [hcontent]
    exact List.take_left' (block_length n)
  have hfill : (fullBlock n).fill = { fullBlock n with
      offset := 0 + (block n).length, unread := block n, eof := (block n).isEmpty } := by
    rw [← hdata]
    rfl
  rw [hfill, block_length, Nat.zero_add]
  rfl

/-- Before the first line is read, the block is. -/
theorem behindLine_fullBlock :
    (readline (fullBlock n).text).1 = (readline (inBlock n (n + 6) (block n)).text).1 ∧
      behindLine (fullBlock n) = behindLine (inBlock n (n + 6) (block n)) := by
  have hne : (fullBlock n).fill.unread ≠ [] := by
    rw [fill_fullBlock]
    exact List.cons_ne_nil _ _
  have htext : (fullBlock n).fill.text = (fullBlock n).text := (fullBlock n).text_fill rfl rfl
  rw [← fill_fullBlock, behindLine, behindLine, htext,
    (fullBlock n).skip_fill (Nat.succ_pos _) rfl rfl hne]
  exact ⟨rfl, rfl⟩

/-- A command that is not found sets the offset back by what is unread behind its line. -/
theorem exitCopy_inBlock {offset : Nat} {unread : List UInt8} (h : unread.length ≤ offset) :
    (inBlock n offset unread).exitCopy = inBlock n (offset - unread.length) unread := by
  rw [InputStream.exitCopy, if_pos ⟨rfl, h⟩]
  rfl

theorem stdinAt_one : stdinAt (fullBlock n) (fun _ => notFound) 1 =
    inBlock n 2 (commandLine n ++ 10 :: (commandLine 0 ++ [10])) := by
  have hlen : (commandLine n ++ 10 :: (commandLine 0 ++ [10])).length = n + 4 := by
    simp [commandLine]
  obtain ⟨hline, hbehind⟩ := behindLine_fullBlock n
  calc stdinAt (fullBlock n) (fun _ => notFound) 1
      = executeLeaves notFound (tokenize (readline (inBlock n (n + 6) (block n)).text).1)
          (behindLine (inBlock n (n + 6) (block n))) := by rw [stdinAt, stdinAt, hline, hbehind]
    _ = (inBlock n (n + 6) (commandLine n ++ 10 :: (commandLine 0 ++ [10]))).exitCopy :=
        executeLeaves_notFound rfl
    _ = inBlock n 2 (commandLine n ++ 10 :: (commandLine 0 ++ [10])) := by
        rw [exitCopy_inBlock n (by omega), hlen]
        congr 1
        omega

theorem stdinAt_two : stdinAt (fullBlock n) (fun _ => notFound) 2 =
    inBlock n 0 (commandLine 0 ++ [10]) := by
  rw [stdinAt, stdinAt_one, executeLeaves_notFound rfl]
  exact exitCopy_inBlock n (Nat.le_refl 2)

/-- Behind the block everything is as it was at the start. -/
theorem stdinAt_three : stdinAt (fullBlock n) (fun _ => notFound) 3 = fullBlock n := by
  rw [stdinAt, stdinAt_two, executeLeaves_notFound rfl]
  exact exitCopy_inBlock n (Nat.le_refl 0)

theorem stdinAt_add_three (k : Nat) : stdinAt (fullBlock n) (fun _ => notFound) (k + 3) =
    stdinAt (fullBlock n) (fun _ => notFound) k := by
  induction k with
  | zero => exact stdinAt_three n
  | succ k ih =>
    rw [Nat.succ_add, stdinAt, ih]
    rfl

/-- Every line that is read is one of the three commands. -/
theorem lineRead_fullBlock (k : Nat) :
    ∃ spaces, lineRead (fullBlock n) (fun _ => notFound) k = commandLine spaces := by
  induction k using Nat.strong_induction_on with
  | h k ih =>
    match k with
    | 0 => exact ⟨0, (behindLine_fullBlock n).1.trans (behindLine_of_unread rfl (newline_not_mem 0)).1⟩
    | 1 =>
      rw [lineRead, stdinAt_one]
      exact ⟨n, (behindLine_of_unread rfl (newline_not_mem n)).1⟩
    | 2 =>
      rw [lineRead, stdinAt_two]
      exact ⟨0, (behindLine_of_unread rfl (newline_not_mem 0)).1⟩
    | k + 3 =>
      rw [lineRead, stdinAt_add_three]
      exact ih k (by omega)

/-- The line behind the block. -/
theorem lineAt_fullBlock : lineAt (fullBlock n).text 3 = ascii "exit" := by
  have htext : (fullBlock n).text = commandLine 0 ++ 10 :: (commandLine n ++ 10 :: (commandLine 0 ++
      10 :: ascii "exit\n")) := rfl
  have hrest : rest (fullBlock n).text 3 = ascii "exit\n" := by
    simp only [rest, htext, readline_append (newline_not_mem _)]
  rw [← readline_rest, hrest]
  rfl

end FullBlock

end SystemsProgramming.MiniShell
