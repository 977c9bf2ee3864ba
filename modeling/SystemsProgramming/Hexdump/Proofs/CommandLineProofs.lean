import SystemsProgramming.Hexdump.CommandLine
import SystemsProgramming.Hexdump.Proofs.LosslessProofs

/-!
# Proofs: from the command line to the dump

`parse_arguments` accepts the command lines of the grammar with arguments in their ranges, without `-h` and
with a file. However an option is written, and wherever it stands between the others and the operands, the
last of its kind counts. What the program then writes is a dump of that file.
-/

namespace SystemsProgramming.Hexdump

open Foundations Getopt

variable {opts opts' : Options} {o : Opt} {os : List Setting} {c : Char} {optarg : Option Word}

/-! ## One option -/

/-- The option is accepted: its argument is in its range, and it is not `-h`. -/
def Opt.Ok : Opt → Prop
  | .width optarg => 1 ≤ optarg.toUInt32 ∧ optarg.toUInt32 ≤ 255
  | .group optarg =>
    optarg.toUInt32 = 1 ∨ optarg.toUInt32 = 2 ∨ optarg.toUInt32 = 4 ∨ optarg.toUInt32 = 8
  | .help | .unknown => False
  | _ => True

/-- What an option does when it is accepted. -/
def Opt.apply (opts : Options) : Opt → Options
  | .width optarg => { opts with width := optarg.toUInt32 }
  | .noAscii => { opts with showAscii := false }
  | .noOffset => { opts with showOffset := false }
  | .decimalOffset => { opts with offsetFormat := .decimal }
  | .binary => { opts with dataFormat := .binary }
  | .output optarg => { opts with outputFilename := some optarg }
  | .group optarg => { opts with grouping := optarg.toUInt32 }
  | .help | .unknown => opts

theorem parseOption_eq_ok_iff : parseOption opts o = .ok opts' ↔ o.Ok ∧ opts' = o.apply opts := by
  cases o with
  | width optarg =>
    simp only [parseOption, Opt.Ok, Opt.apply]
    split
    · rename_i hrange
      refine iff_of_false (fun h => by cases h) fun h => ?_
      rcases hrange with hlt | hgt
      · exact absurd h.1.1 (UInt32.not_le.2 hlt)
      · exact absurd h.1.2 (UInt32.not_le.2 hgt)
    · rename_i hrange
      rw [not_or, UInt32.not_lt, UInt32.not_lt] at hrange
      simp [hrange, eq_comm]
  | group optarg =>
    simp only [parseOption, Opt.Ok, Opt.apply]
    split
    · rename_i hrange
      refine iff_of_false (fun h => by cases h) fun h => ?_
      rcases h.1 with h1 | h2 | h4 | h8
      · exact hrange.1 h1
      · exact hrange.2.1 h2
      · exact hrange.2.2.1 h4
      · exact hrange.2.2.2 h8
    · rename_i hrange
      have hok : optarg.toUInt32 = 1 ∨ optarg.toUInt32 = 2 ∨ optarg.toUInt32 = 4 ∨
          optarg.toUInt32 = 8 := by
        by_contra hno
        simp only [not_or] at hno
        exact hrange hno
      simp [hok, eq_comm]
  | help | unknown => simp [parseOption, Opt.Ok]
  | _ => simp [parseOption, Opt.Ok, Opt.apply, eq_comm]

theorem foldlM_parseOption_eq_ok_iff {options : List Opt} :
    options.foldlM parseOption opts = .ok opts' ↔
      (∀ o ∈ options, o.Ok) ∧ opts' = options.foldl Opt.apply opts := by
  induction options generalizing opts with
  | nil => simp [pure, Except.pure, eq_comm]
  | cons o options ih =>
    rw [List.foldlM_cons, List.forall_mem_cons, List.foldl_cons, and_assoc, ← ih]
    cases h : parseOption opts o with
    | error e =>
      refine iff_of_false (fun h => by cases h) fun hok => ?_
      rw [parseOption_eq_ok_iff.2 ⟨hok.1, rfl⟩] at h
      cases h
    | ok opts1 =>
      obtain ⟨hok, rfl⟩ := parseOption_eq_ok_iff.1 h
      exact (and_iff_right hok).symm

/-! ## All the options -/

/-- The option occurs. -/
def given (c : Char) (os : List Setting) : Bool := os.any fun o => o.1 = c

/-- The argument of the last occurrence of an option. -/
def lastArg (c : Char) (os : List Setting) : Option Word :=
  ((os.filter fun o => o.1 = c).getLast?).bind Prod.snd

/-- What the command line asks for: of each kind of option the last counts. -/
def settings (os : List Setting) : Options where
  width := ((lastArg 'w' os).map fun arg => (atoi arg).toUInt32).getD 16
  showAscii := !given 'a' os
  showOffset := !given 'O' os
  offsetFormat := if given 'd' os then .decimal else .hex
  dataFormat := if given 'b' os then .binary else .hex
  grouping := ((lastArg 'g' os).map fun arg => (atoi arg).toUInt32).getD 1
  filename := none
  outputFilename := (lastArg 'o' os).map String.ofList

/-- Every argument is in its range, and no option asks for help. -/
structure InRange (os : List Setting) : Prop where
  width : ∀ arg, ('w', some arg) ∈ os → 1 ≤ (atoi arg).toUInt32 ∧ (atoi arg).toUInt32 ≤ 255
  group : ∀ arg, ('g', some arg) ∈ os → (atoi arg).toUInt32 = 1 ∨ (atoi arg).toUInt32 = 2 ∨
    (atoi arg).toUInt32 = 4 ∨ (atoi arg).toUInt32 = 8
  help : ('h', none) ∉ os

theorem given_concat (o : Setting) : given c (os ++ [o]) = (given c os || decide (o.1 = c)) := by
  simp [given, Bool.or_comm]

theorem lastArg_concat (o : Setting) :
    lastArg c (os ++ [o]) = if o.1 = c then o.2 else lastArg c os := by
  unfold lastArg
  rw [List.filter_append]
  by_cases h : o.1 = c <;> simp [h]

/-- The options of the tool: letters, each with an argument or without one. -/
inductive Known : Setting → Prop where
  | width (arg : Word) : Known ('w', some arg)
  | noAscii : Known ('a', none)
  | noOffset : Known ('O', none)
  | decimalOffset : Known ('d', none)
  | binary : Known ('b', none)
  | output (arg : Word) : Known ('o', some arg)
  | group (arg : Word) : Known ('g', some arg)
  | help : Known ('h', none)

theorem known_flag (h : c = 'a' ∨ c = 'O' ∨ c = 'd' ∨ c = 'b' ∨ c = 'h') : Known (c, none) := by
  rcases h with rfl | rfl | rfl | rfl | rfl <;> constructor

theorem known_arg (h : c = 'w' ∨ c = 'o' ∨ c = 'g') (arg : Word) : Known (c, some arg) := by
  rcases h with rfl | rfl | rfl <;> constructor

theorem known_of_commandLine {argv operands : List Word} (h : CommandLine spec argv os operands) :
    ∀ o ∈ os, Known o := by
  have hflag : (spec.optstring.all fun c => spec.short c = some false →
      c = 'a' ∨ c = 'O' ∨ c = 'd' ∨ c = 'b' ∨ c = 'h') = true := by decide
  have harg : (spec.optstring.all fun c => spec.short c = some true →
      c = 'w' ∨ c = 'o' ∨ c = 'g') = true := by decide
  rw [List.all_eq_true] at hflag harg
  have hlong : ∀ o ∈ spec.longOptions, o.hasArg = false →
      o.val = 'a' ∨ o.val = 'O' ∨ o.val = 'd' ∨ o.val = 'b' ∨ o.val = 'h' := by decide
  have hlongArg : ∀ o ∈ spec.longOptions, o.hasArg = true →
      o.val = 'w' ∨ o.val = 'o' ∨ o.val = 'g' := by decide
  refine h.forall_mem (fun c hc => ?_) (fun c arg hc => ?_) (fun o ho hno => ?_) fun o ho hhas arg => ?_
  · exact known_flag (of_decide_eq_true (hflag c (mem_of_short hc)) hc)
  · exact known_arg (of_decide_eq_true (harg c (mem_of_short hc)) hc) arg
  · exact known_flag (hlong o ho hno)
  · exact known_arg (hlongArg o ho hhas) arg

/-- What one more option changes. -/
theorem settings_concat {o : Setting} (h : Known o) :
    settings (os ++ [o]) = (opt o.result).apply (settings os) := by
  cases h <;> simp [settings, given_concat, lastArg_concat, Setting.result, opt, Opt.apply]

theorem foldl_apply (h : ∀ o ∈ os, Known o) :
    ((os.map Setting.result).map opt).foldl Opt.apply {} = settings os := by
  induction os using List.reverseRecOn with
  | nil => rfl
  | append_singleton os o ih =>
    rw [List.forall_mem_append, List.forall_mem_singleton] at h
    rw [List.map_append, List.map_append, List.foldl_append, ih h.1, settings_concat h.2]
    rfl

theorem inRange_iff (h : ∀ o ∈ os, Known o) :
    InRange os ↔ ∀ o ∈ (os.map Setting.result).map opt, o.Ok := by
  have hmap : (∀ o ∈ (os.map Setting.result).map opt, o.Ok) ↔ ∀ o ∈ os, (opt o.result).Ok := by
    simp only [List.forall_mem_map]
  rw [hmap]
  constructor
  · intro hrange o ho
    cases h o ho with
    | width arg => exact hrange.width arg ho
    | group arg => exact hrange.group arg ho
    | help => exact hrange.help ho
    | _ => trivial
  · intro hok
    exact ⟨fun arg ho => hok _ ho, fun arg ho => hok _ ho, fun ho => hok _ ho⟩

/-- `parse_arguments` accepts exactly the command lines of the grammar with all arguments in their ranges,
without a call for help and with a file; the first operand is the file, and of each kind of option the last
counts. -/
theorem parseArgv_eq_ok_iff {argv : List Word} : parseArgv argv = .ok opts ↔
    ∃ os file more, CommandLine spec argv os (file :: more) ∧ InRange os ∧
      opts = { settings os with filename := some (String.ofList file) } := by
  unfold parseArgv parseArguments
  constructor
  · intro h
    cases hfold : ((scan spec argv).1.map opt).foldlM parseOption {} with
    | error e =>
      rw [hfold] at h
      cases h
    | ok opts1 =>
      rw [hfold] at h
      obtain ⟨hok, rfl⟩ := foldlM_parseOption_eq_ok_iff.1 hfold
      have hvalid : .invalid ∉ (scan spec argv).1 := fun hmem => hok _ (List.mem_map_of_mem hmem)
      obtain ⟨os, hos⟩ := exists_settings hvalid
      have hline : CommandLine spec argv os (scan spec argv).2 := scan_eq_iff.1 (Prod.ext hos rfl)
      have hknown := known_of_commandLine hline
      rw [hos] at hok h
      rw [foldl_apply hknown] at h
      cases hoperands : (scan spec argv).2 with
      | nil =>
        rw [hoperands] at h
        cases h
      | cons file more =>
        rw [hoperands] at h hline
        cases h
        exact ⟨os, file, more, hline, (inRange_iff hknown).2 hok, rfl⟩
  · rintro ⟨os, file, more, hline, hrange, rfl⟩
    have hknown := known_of_commandLine hline
    have hfold : ((os.map Setting.result).map opt).foldlM parseOption {} = .ok (settings os) :=
      foldlM_parseOption_eq_ok_iff.2 ⟨(inRange_iff hknown).1 hrange, (foldl_apply hknown).symm⟩
    rw [scan_eq_iff.2 hline, hfold]
    rfl

/-- Options in a cluster, by the beginning of a long name and behind the file. -/
example : (parseArgv ["-bw8".toList, "--gr=2".toList, "file".toList, "-w".toList, "12".toList]).toOption.map
    (fun opts => (opts.width, opts.grouping, opts.filename)) = some (12, 2, some "file") := by decide

/-! ## The program -/

section Program

variable {Place : Type} [DecidableEq Place] {argv : List Word} {files : Files Place}
  {name out : String} {content : List UInt8}

omit [DecidableEq Place] in
theorem Files.opens_iff : files.Opens name ↔
    files.readable name = true ∧ ∃ content, files.content (files.place name) = some content := by
  rw [Files.Opens, Option.isSome_iff_exists]

@[simp] theorem Files.place_write (files : Files Place) (out : String) (text : List UInt8) :
    (files.write out text).place = files.place := rfl

/-- What has been written to one file is in none of the others. -/
theorem Files.write_content (files : Files Place) (out : String) (text : List UInt8) (p : Place) :
    (files.write out text).content p = if p = files.place out then some text else files.content p := by
  unfold Files.write
  split
  · rename_i heq
    rw [heq]
    exact Function.update_self ..
  · rename_i hne
    exact Function.update_of_ne hne ..

/-- The program gets as far as the dump: the arguments are accepted, and both files can be opened. -/
structure Started (argv : List Word) (files : Files Place) (opts : Options) (name : String)
    (content : List UInt8) : Prop where
  parsed : parseArgv argv = .ok opts
  filename : opts.filename = some name
  readable : files.readable name = true
  content : files.content (files.place name) = some content
  writable : ∀ out, opts.outputFilename = some out → files.writable out = true

/-- What the program leaves behind: a dump of the file, on the standard output or in a file, and no other
file changed, nor any name. The file itself is empty when it is read, if the name that is written to leads
to it too. -/
structure Dumped (files : Files Place) (opts : Options) (name : String) (content : List UInt8)
    (r : Outcome Place) : Prop where
  stdout : opts.outputFilename = none → decode opts r.stdout = some content ∧ r.files = files
  output : ∀ out, opts.outputFilename = some out → r.stdout = [] ∧
    (∃ text, r.files.content (files.place out) = some text ∧
      decode opts text = some (if files.place out = files.place name then [] else content)) ∧
    (∀ p, p ≠ files.place out → r.files.content p = files.content p) ∧ r.files.place = files.place

theorem parseArguments_filename {options : List Opt} {arguments : List String}
    (h : parseArguments options arguments = .ok opts) : ∃ name, opts.filename = some name := by
  unfold parseArguments at h
  split at h
  · cases h
  · split at h
    · cases h
    · cases h
      exact ⟨_, rfl⟩

theorem main_of_started (h : Started argv files opts name content) :
    (main argv files).status = 0 ∧ Dumped files opts name content (main argv files) := by
  have hvalid : opts.Valid := parseArguments_valid h.parsed
  have hopens : files.Opens name := Files.opens_iff.2 ⟨h.readable, content, h.content⟩
  cases hout : opts.outputFilename with
  | none =>
    have hmain : main argv files = ⟨0, dump opts content, [], files⟩ := by
      simp only [main, h.parsed, h.filename, Option.getD_some, if_pos hopens, hout, Files.read, h.content]
    rw [hmain]
    refine ⟨rfl, fun _ => ⟨decode_dump hvalid content, rfl⟩, fun out hsome => ?_⟩
    rw [hout] at hsome
    cases hsome
  | some out =>
    have hmain : main argv files = ⟨0, [], [], (files.write out []).write out
        (dump opts ((files.write out []).read name))⟩ := by
      simp only [main, h.parsed, h.filename, Option.getD_some, if_pos hopens, hout,
        if_pos (h.writable out hout)]
    have hread : (files.write out []).read name =
        if files.place out = files.place name then [] else content := by
      show ((files.write out []).content (files.place name)).getD [] = _
      rw [Files.write_content, h.content]
      by_cases hsame : files.place out = files.place name
      · simp [hsame]
      · simp [hsame, Ne.symm hsame]
    rw [hmain, hread]
    refine ⟨rfl, fun hnone => ?_, fun out' hout' => ⟨rfl, ?_, fun p hp => ?_, rfl⟩⟩
    · rw [hout] at hnone
      cases hnone
    · obtain rfl : out = out' := Option.some.inj (hout.symm.trans hout')
      exact ⟨_, (Files.write_content ..).trans (if_pos rfl), decode_dump hvalid _⟩
    · obtain rfl : out = out' := Option.some.inj (hout.symm.trans hout')
      show ((files.write out []).write out _).content p = _
      rw [Files.write_content, Files.place_write, if_neg hp, Files.write_content, if_neg hp]

theorem main_of_not_started (h : ¬ ∃ opts name content, Started argv files opts name content) :
    (main argv files).status = 1 ∧ (main argv files).files = files := by
  unfold main
  split
  · exact ⟨rfl, rfl⟩
  · exact ⟨rfl, rfl⟩
  · rename_i opts hparsed
    obtain ⟨name, hname⟩ := parseArguments_filename hparsed
    simp only [hname, Option.getD_some]
    split
    · rename_i hopens
      obtain ⟨hreadable, content, hcontent⟩ := Files.opens_iff.1 hopens
      split
      · rename_i hnone
        refine absurd ⟨opts, name, content, hparsed, hname, hreadable, hcontent, fun out hout => ?_⟩ h
        rw [hnone] at hout
        cases hout
      · rename_i out hout
        split
        · rename_i hwritable
          refine absurd ⟨opts, name, content, hparsed, hname, hreadable, hcontent, fun out' hout' => ?_⟩ h
          rwa [← Option.some.inj (hout.symm.trans hout')]
        · exact ⟨rfl, rfl⟩
    · exact ⟨rfl, rfl⟩

/-- Whatever the command line and the files: either the arguments are accepted and the files open, and then
the program returns 0 and leaves a dump from which the content of the file is recovered, or it returns 1 and
leaves all files as they were. -/
theorem main_dumps (argv : List Word) (files : Files Place) :
    (∃ opts name content, Started argv files opts name content ∧
      (main argv files).status = 0 ∧ Dumped files opts name content (main argv files)) ∨
    (¬ ∃ opts name content, Started argv files opts name content) ∧
      (main argv files).status = 1 ∧ (main argv files).files = files := by
  by_cases h : ∃ opts name content, Started argv files opts name content
  · obtain ⟨opts, name, content, hstarted⟩ := h
    exact .inl ⟨opts, name, content, hstarted, main_of_started hstarted⟩
  · exact .inr ⟨h, main_of_not_started h⟩

end Program

end SystemsProgramming.Hexdump
