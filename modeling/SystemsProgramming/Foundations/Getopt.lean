import Mathlib.Data.List.TakeWhile

/-!
# Command lines (`getopt_long`)

The words behind the name of a program are options, arguments of options and operands. `scan` takes them
apart as `getopt_long` does when it is called until it returns `-1` and neither the order of the words nor
`POSIXLY_CORRECT` stops it at the first operand. `CommandLine` is the grammar of the command lines in which
it finds nothing wrong: short options in clusters, arguments attached or in a word of their own, long
options by any beginning of their names that only one of them has.
-/

namespace Foundations

namespace Getopt

/-- A word of the command line. -/
abbrev Word := List Char

/-- An entry of the table of long options. -/
structure LongOption where
  name : Word
  hasArg : Bool
  val : Char
  deriving DecidableEq

/-- What `getopt_long` is told: the short options, each with a colon behind it if it has an argument, and
the table of the long ones. A dash is no option. -/
structure Spec where
  optstring : List Char
  longOptions : List LongOption
  dash : '-' ∉ optstring

/-- What a call returns: the value of an option, with its argument, or that something is wrong. -/
inductive Result where
  | option (val : Char) (optarg : Option Word)
  | invalid
  deriving DecidableEq

/-! ## Options -/

/-- A short option: whether it has an argument. -/
def Spec.short (spec : Spec) (c : Char) : Option Bool :=
  if c = ':' ∨ c = ';' then none
  else
    match spec.optstring.dropWhile (· ≠ c) with
    | [] => none
    | _ :: rest => some (rest.head? = some ':')

/-- A long option by its name, or by a beginning of it that stands for one option only. -/
def Spec.long (spec : Spec) (name : Word) : Option LongOption :=
  match spec.longOptions.find? fun o => o.name = name with
  | some o => some o
  | none =>
    match spec.longOptions.filter fun o => name <+: o.name with
    | [] => none
    | o :: os => if ∀ o' ∈ os, o'.hasArg = o.hasArg ∧ o'.val = o.val then some o else none

variable (spec : Spec)

/-- The short options of one word: what they are, and an option at the end whose argument is the next
word. -/
def cluster : List Char → List Result × Option Char
  | [] => ([], none)
  | c :: cs =>
    match spec.short c with
    | none => (.invalid :: (cluster cs).1, (cluster cs).2)
    | some false => (.option c none :: (cluster cs).1, (cluster cs).2)
    | some true => if cs = [] then ([], some c) else ([.option c (some cs)], none)

/-- A long option, without the two dashes. -/
def longWord (body : Word) : List Result × Option Char :=
  match spec.long (body.takeWhile (· ≠ '=')) with
  | none => ([.invalid], none)
  | some o =>
    match body.dropWhile (· ≠ '='), o.hasArg with
    | [], false => ([.option o.val none], none)
    | [], true => ([], some o.val)
    | _ :: arg, true => ([.option o.val (some arg)], none)
    | _ :: _, false => ([.invalid], none)

/-- What a word is. -/
inductive Kind where
  | operand
  | terminator
  | options (results : List Result) (pending : Option Char)

def kind : Word → Kind
  | '-' :: '-' :: c :: body => .options (longWord spec (c :: body)).1 (longWord spec (c :: body)).2
  | ['-', '-'] => .terminator
  | '-' :: c :: cs => .options (cluster spec (c :: cs)).1 (cluster spec (c :: cs)).2
  | _ => .operand

/-- All the calls: what they return, and the operands that are left. -/
def scan : List Word → List Result × List Word
  | [] => ([], [])
  | w :: ws =>
    match kind spec w with
    | .operand => ((scan ws).1, w :: (scan ws).2)
    | .terminator => ([], ws)
    | .options results none => (results ++ (scan ws).1, (scan ws).2)
    | .options results (some c) =>
      match ws with
      | [] => (results ++ [.invalid], [])
      | arg :: ws => (results ++ .option c (some arg) :: (scan ws).1, (scan ws).2)

/-! ## The grammar -/

/-- An option with its argument. -/
abbrev Setting := Char × Option Word

def Setting.result (o : Setting) : Result := .option o.1 o.2

/-- These characters are options without an argument. -/
def Flags (cs : List Char) : Prop := ∀ c ∈ cs, spec.short c = some false

/-- Words that belong together, and the options in them. -/
inductive Piece : List Word → List Setting → Prop where
  | flags {cs : List Char} (hne : cs ≠ []) (h : Flags spec cs) :
    Piece ['-' :: cs] (cs.map fun c => (c, none))
  | attached {cs : List Char} {c : Char} {arg : Word} (h : Flags spec cs)
    (hc : spec.short c = some true) (harg : arg ≠ []) :
    Piece ['-' :: (cs ++ c :: arg)] (cs.map (fun c => (c, none)) ++ [(c, some arg)])
  | separate {cs : List Char} {c : Char} (h : Flags spec cs) (hc : spec.short c = some true)
    (arg : Word) : Piece ['-' :: (cs ++ [c]), arg] (cs.map (fun c => (c, none)) ++ [(c, some arg)])
  | long {name : Word} {o : LongOption} (hne : name ≠ []) (hname : '=' ∉ name)
    (h : spec.long name = some o) (ho : o.hasArg = false) :
    Piece ['-' :: '-' :: name] [(o.val, none)]
  | longAttached {name : Word} {o : LongOption} (hname : '=' ∉ name) (h : spec.long name = some o)
    (ho : o.hasArg = true) (arg : Word) :
    Piece ['-' :: '-' :: (name ++ '=' :: arg)] [(o.val, some arg)]
  | longSeparate {name : Word} {o : LongOption} (hne : name ≠ []) (hname : '=' ∉ name)
    (h : spec.long name = some o) (ho : o.hasArg = true) (arg : Word) :
    Piece ['-' :: '-' :: name, arg] [(o.val, some arg)]

/-- A command line with its options, in their order, and its operands. -/
inductive CommandLine : List Word → List Setting → List Word → Prop where
  | nil : CommandLine [] [] []
  | piece {ws rest operands : List Word} {os os' : List Setting} (h : Piece spec ws os)
    (hrest : CommandLine rest os' operands) : CommandLine (ws ++ rest) (os ++ os') operands
  | operand {w : Word} {rest operands : List Word} {os : List Setting}
    (h : ∀ c cs, w ≠ '-' :: c :: cs) (hrest : CommandLine rest os operands) :
    CommandLine (w :: rest) os (w :: operands)
  | terminator (operands : List Word) : CommandLine (['-', '-'] :: operands) [] operands

/-! ## What is accepted -/

section Accepts

variable {spec} {cs : List Char} {c : Char} {w name arg : Word} {ws operands : List Word}
  {results : List Result} {pending : Option Char} {os : List Setting}

theorem short_dash (spec : Spec) : spec.short '-' = none := by
  have hnone : spec.optstring.dropWhile (· ≠ '-') = [] := by
    rw [List.dropWhile_eq_nil_iff]
    intro c hc
    rw [decide_eq_true_iff]
    rintro rfl
    exact spec.dash hc
  rw [Spec.short, hnone]
  rfl

theorem cluster_flags (h : Flags spec cs) (t : List Char) : cluster spec (cs ++ t) =
    ((cs.map fun c => (c, none)).map Setting.result ++ (cluster spec t).1, (cluster spec t).2) := by
  induction cs with
  | nil => rfl
  | cons c cs ih =>
    rw [Flags, List.forall_mem_cons] at h
    rw [List.cons_append, cluster, h.1, ih h.2]
    rfl

theorem cons_eq_map {val : Char} {optarg : Option Word}
    (h : .option val optarg :: results = os.map Setting.result) :
    ∃ os', os = (val, optarg) :: os' ∧ results = os'.map Setting.result := by
  cases os with
  | nil => cases h
  | cons o os =>
    obtain ⟨ho, hos⟩ := List.cons.inj h
    obtain ⟨rfl, rfl⟩ := Result.option.inj ho
    exact ⟨os, rfl, hos⟩

theorem invalid_not_mem : .invalid ∉ os.map Setting.result := by
  rw [List.mem_map]
  rintro ⟨o, -, ho⟩
  cases ho

/-- A cluster in which nothing is wrong consists of flags, and of an option with an argument where it
ends. -/
theorem cluster_eq (h : (cluster spec cs).1 = os.map Setting.result) :
    ((cluster spec cs).2 = none ∧ Flags spec cs ∧ os = cs.map fun c => (c, none)) ∨
    (∃ fs c arg, (cluster spec cs).2 = none ∧ Flags spec fs ∧ spec.short c = some true ∧ arg ≠ [] ∧
      cs = fs ++ c :: arg ∧ os = fs.map (fun c => (c, none)) ++ [(c, some arg)]) ∨
    ∃ fs c, (cluster spec cs).2 = some c ∧ Flags spec fs ∧ spec.short c = some true ∧ cs = fs ++ [c] ∧
      os = fs.map fun c => (c, none) := by
  induction cs generalizing os with
  | nil => exact .inl ⟨rfl, nofun, List.map_eq_nil_iff.1 h.symm⟩
  | cons c cs ih =>
    rw [cluster] at h ⊢
    split at h
    · have hmem : .invalid ∈ os.map Setting.result := by
        rw [← h]
        exact List.mem_cons_self
      exact absurd hmem invalid_not_mem
    · rename_i hc
      obtain ⟨os, rfl, hos⟩ := cons_eq_map h
      have hflags : ∀ {fs : List Char}, Flags spec fs → Flags spec (c :: fs) := fun hfs =>
        List.forall_mem_cons.2 ⟨hc, hfs⟩
      rcases ih hos with ⟨hp, hfs, rfl⟩ | ⟨fs, d, arg, hp, hfs, hd, harg, rfl, rfl⟩ |
        ⟨fs, d, hp, hfs, hd, rfl, rfl⟩
      · exact .inl ⟨hp, hflags hfs, rfl⟩
      · exact .inr (.inl ⟨c :: fs, d, arg, hp, hflags hfs, hd, harg, rfl, rfl⟩)
      · exact .inr (.inr ⟨c :: fs, d, hp, hflags hfs, hd, rfl, rfl⟩)
    · rename_i hc
      split at h
      · rename_i hcs
        subst hcs
        exact .inr (.inr ⟨[], c, rfl, nofun, hc, rfl, List.map_eq_nil_iff.1 h.symm⟩)
      · rename_i hcs
        obtain ⟨os, rfl, hos⟩ := cons_eq_map h
        rw [List.map_eq_nil_iff.1 hos.symm, if_neg hcs]
        exact .inr (.inl ⟨[], c, cs, rfl, nofun, hc, hcs, rfl, rfl⟩)

theorem equals_not_mem (h : '=' ∉ name) : ∀ c ∈ name, decide (c ≠ '=') = true := by
  intro c hc
  rw [decide_eq_true_iff]
  rintro rfl
  exact h hc

theorem longWord_name (h : '=' ∉ name) : longWord spec name =
    (spec.long name).elim ([.invalid], none) fun o =>
      if o.hasArg then ([], some o.val) else ([.option o.val none], none) := by
  have htake : name.takeWhile (· ≠ '=') = name := List.takeWhile_eq_self_iff.2 (equals_not_mem h)
  have hdrop : name.dropWhile (· ≠ '=') = [] := List.dropWhile_eq_nil_iff.2 (equals_not_mem h)
  rw [longWord, htake, hdrop]
  cases spec.long name with
  | none => rfl
  | some o => cases ho : o.hasArg <;> simp [ho]

theorem longWord_attached (h : '=' ∉ name) (arg : Word) : longWord spec (name ++ '=' :: arg) =
    (spec.long name).elim ([.invalid], none) fun o =>
      if o.hasArg then ([.option o.val (some arg)], none) else ([.invalid], none) := by
  have htake : (name ++ '=' :: arg).takeWhile (· ≠ '=') = name := by
    rw [List.takeWhile_append_of_pos (equals_not_mem h)]
    simp
  have hdrop : (name ++ '=' :: arg).dropWhile (· ≠ '=') = '=' :: arg := by
    rw [List.dropWhile_append_of_pos (equals_not_mem h)]
    simp
  rw [longWord, htake, hdrop]
  cases spec.long name with
  | none => rfl
  | some o => cases ho : o.hasArg <;> simp [ho]

/-- A word is a name, or a name and an argument. -/
theorem name_cases (body : Word) : ∃ name, '=' ∉ name ∧
    (body = name ∨ ∃ arg, body = name ++ '=' :: arg) := by
  have hsplit := List.takeWhile_append_dropWhile (p := (· ≠ '=')) (l := body)
  refine ⟨body.takeWhile (· ≠ '='), fun hmem => by simpa using List.mem_takeWhile_imp hmem, ?_⟩
  cases hdrop : body.dropWhile (· ≠ '=') with
  | nil =>
    rw [hdrop, List.append_nil] at hsplit
    exact .inl hsplit.symm
  | cons c arg =>
    have hc : c = '=' := by
      have hhead := List.head?_dropWhile_not (· ≠ '=') body
      rw [hdrop] at hhead
      simpa using hhead
    rw [hdrop, hc] at hsplit
    exact .inr ⟨arg, hsplit.symm⟩

theorem ne_invalid (h : [.invalid] = os.map Setting.result) : False :=
  invalid_not_mem (h ▸ List.mem_singleton_self _)

/-- A long option in which nothing is wrong. -/
theorem longWord_eq {body : Word} (hne : body ≠ []) (h : (longWord spec body).1 = os.map Setting.result) :
    ((longWord spec body).2 = none ∧ Piece spec ['-' :: '-' :: body] os) ∨
    ∃ c, (longWord spec body).2 = some c ∧
      ∀ arg, Piece spec ['-' :: '-' :: body, arg] (os ++ [(c, some arg)]) := by
  obtain ⟨name, hname, rfl | ⟨arg, rfl⟩⟩ := name_cases body
  · rw [longWord_name hname] at h ⊢
    cases hlong : spec.long body with
    | none => exact (ne_invalid (by simpa [hlong] using h)).elim
    | some o =>
      rw [hlong, Option.elim_some] at h
      rw [Option.elim_some]
      cases ho : o.hasArg with
      | true =>
        simp only [ho, if_true] at h ⊢
        rw [List.map_eq_nil_iff.1 h.symm]
        exact .inr ⟨o.val, rfl, fun arg => .longSeparate hne hname hlong ho arg⟩
      | false =>
        simp only [ho, Bool.false_eq_true, if_false] at h ⊢
        obtain ⟨os, rfl, hos⟩ := cons_eq_map h
        rw [List.map_eq_nil_iff.1 hos.symm]
        exact .inl ⟨trivial, .long hne hname hlong ho⟩
  · rw [longWord_attached hname] at h ⊢
    cases hlong : spec.long name with
    | none => exact (ne_invalid (by simpa [hlong] using h)).elim
    | some o =>
      rw [hlong, Option.elim_some] at h
      rw [Option.elim_some]
      cases ho : o.hasArg with
      | true =>
        simp only [ho, if_true] at h ⊢
        obtain ⟨os, rfl, hos⟩ := cons_eq_map h
        rw [List.map_eq_nil_iff.1 hos.symm]
        exact .inl ⟨trivial, .longAttached hname hlong ho arg⟩
      | false => exact (ne_invalid (by simpa [ho] using h)).elim

/-- A word of options in which nothing is wrong. -/
theorem kind_options (h : kind spec w = .options results pending)
    (hresults : results = os.map Setting.result) :
    (pending = none ∧ Piece spec [w] os) ∨
    ∃ c, pending = some c ∧ ∀ arg, Piece spec [w, arg] (os ++ [(c, some arg)]) := by
  unfold kind at h
  split at h
  · obtain ⟨rfl, rfl⟩ := Kind.options.inj h
    exact longWord_eq (List.cons_ne_nil _ _) hresults
  · cases h
  · rename_i c cs
    obtain ⟨rfl, rfl⟩ := Kind.options.inj h
    rcases cluster_eq hresults with ⟨hp, hfs, rfl⟩ | ⟨fs, d, arg, hp, hfs, hd, harg, hcs, rfl⟩ |
      ⟨fs, d, hp, hfs, hd, hcs, rfl⟩
    · exact .inl ⟨hp, .flags (List.cons_ne_nil _ _) hfs⟩
    · rw [hcs]
      exact .inl ⟨hcs ▸ hp, .attached hfs hd harg⟩
    · rw [hcs]
      exact .inr ⟨d, hcs ▸ hp, fun arg => .separate hfs hd arg⟩
  · cases h

theorem kind_terminator (h : kind spec w = .terminator) : w = ['-', '-'] := by
  unfold kind at h
  split at h
  · cases h
  · rfl
  · cases h
  · cases h

theorem kind_operand_iff : kind spec w = .operand ↔ ∀ c cs, w ≠ '-' :: c :: cs := by
  unfold kind
  split <;> simp_all

theorem kind_short {b : Bool} (hc : spec.short c = some b) (cs : List Char) :
    kind spec ('-' :: c :: cs) =
      .options (cluster spec (c :: cs)).1 (cluster spec (c :: cs)).2 := by
  have hdash : c ≠ '-' := by
    rintro rfl
    rw [short_dash] at hc
    cases hc
  unfold kind
  split <;> simp_all

theorem kind_cluster {fs : List Char} {b : Bool} (hfs : Flags spec fs) (hc : spec.short c = some b)
    (cs : List Char) : kind spec ('-' :: (fs ++ c :: cs)) =
      .options ((fs.map fun c => (c, none)).map Setting.result ++ (cluster spec (c :: cs)).1)
        (cluster spec (c :: cs)).2 := by
  have hcluster := cluster_flags hfs (c :: cs)
  cases fs with
  | nil => exact kind_short hc cs
  | cons f fs =>
    rw [List.cons_append, kind_short (hfs f List.mem_cons_self), ← List.cons_append, hcluster]

theorem kind_long (spec : Spec) {body : Word} (hne : body ≠ []) :
    kind spec ('-' :: '-' :: body) = .options (longWord spec body).1 (longWord spec body).2 := by
  cases body with
  | nil => exact absurd rfl hne
  | cons c body => rfl

/-- The words of a piece are taken apart into its options, whatever comes behind them. -/
theorem scan_piece (h : Piece spec ws os) (rest : List Word) : scan spec (ws ++ rest) =
    (os.map Setting.result ++ (scan spec rest).1, (scan spec rest).2) := by
  cases h with
  | @flags cs hne h =>
    have hcluster := cluster_flags h []
    rw [List.append_nil] at hcluster
    have hkind : kind spec ('-' :: cs) = .options (cluster spec cs).1 (cluster spec cs).2 := by
      cases cs with
      | nil => exact absurd rfl hne
      | cons c cs => exact kind_short (h c List.mem_cons_self) cs
    rw [hcluster, cluster, List.append_nil] at hkind
    rw [List.singleton_append, scan, hkind]
  | @attached cs c arg h hc harg =>
    have hkind := kind_cluster h hc arg
    simp only [cluster, hc, if_neg harg] at hkind
    rw [List.singleton_append, scan, hkind, List.map_append]
    rfl
  | @separate cs c h hc arg =>
    have hkind := kind_cluster h hc []
    simp only [cluster, hc, if_true, List.append_nil] at hkind
    rw [List.cons_append, List.singleton_append, scan, hkind, List.map_append, List.append_assoc]
    rfl
  | @long name o hne hname ho harg =>
    have hkind := kind_long spec hne
    rw [longWord_name hname, ho, Option.elim_some, harg] at hkind
    rw [List.singleton_append, scan, hkind]
    rfl
  | @longAttached name o hname ho harg arg =>
    have hkind := kind_long spec (List.append_ne_nil_of_right_ne_nil name (List.cons_ne_nil '=' arg))
    rw [longWord_attached hname, ho, Option.elim_some, harg] at hkind
    rw [List.singleton_append, scan, hkind]
    rfl
  | @longSeparate name o hne hname ho harg arg =>
    have hkind := kind_long spec hne
    rw [longWord_name hname, ho, Option.elim_some, harg] at hkind
    rw [List.cons_append, List.singleton_append, scan, hkind]
    rfl

/-- `getopt_long` finds nothing wrong in exactly the command lines of the grammar, and finds their options
and operands. -/
theorem scan_eq_iff :
    scan spec ws = (os.map Setting.result, operands) ↔ CommandLine spec ws os operands := by
  constructor
  · intro h
    induction ws using scan.induct spec generalizing os operands with
    | case1 =>
      obtain ⟨hos, rfl⟩ := Prod.mk.inj h
      rw [List.map_eq_nil_iff.1 hos.symm]
      exact .nil
    | case2 w ws hkind ih =>
      rw [scan, hkind] at h
      obtain ⟨hos, rfl⟩ := Prod.mk.inj h
      exact .operand (kind_operand_iff.1 hkind) (ih (Prod.ext hos rfl))
    | case3 w ws hkind =>
      rw [scan, hkind] at h
      obtain ⟨hos, rfl⟩ := Prod.mk.inj h
      rw [List.map_eq_nil_iff.1 hos.symm, kind_terminator hkind]
      exact .terminator ws
    | case4 w ws results hkind ih =>
      rw [scan, hkind] at h
      obtain ⟨hos, hoperands⟩ := Prod.mk.inj h
      obtain ⟨os₁, os₂, rfl, h₁, h₂⟩ := List.map_eq_append_iff.1 hos.symm
      rcases kind_options hkind h₁.symm with ⟨-, hpiece⟩ | ⟨c, hc, -⟩
      · exact .piece hpiece (ih (Prod.ext h₂.symm hoperands))
      · cases hc
    | case5 w results c hkind =>
      rw [scan, hkind] at h
      obtain ⟨hos, -⟩ := Prod.mk.inj h
      exact absurd (hos ▸ List.mem_append_right _ (List.mem_singleton_self _)) invalid_not_mem
    | case6 w results c hkind arg ws ih =>
      rw [scan, hkind] at h
      obtain ⟨hos, hoperands⟩ := Prod.mk.inj h
      obtain ⟨os₁, os₂, rfl, h₁, h₂⟩ := List.map_eq_append_iff.1 hos.symm
      obtain ⟨os₃, rfl, h₃⟩ := cons_eq_map h₂.symm
      rcases kind_options hkind h₁.symm with ⟨hc, -⟩ | ⟨d, hd, hpiece⟩
      · cases hc
      · obtain rfl := Option.some.inj hd
        have hline := CommandLine.piece (hpiece arg) (ih (Prod.ext h₃ hoperands))
        rwa [List.append_assoc] at hline
  · intro h
    induction h with
    | nil => rfl
    | piece h hrest ih => rw [scan_piece h, ih, List.map_append]
    | operand h hrest ih => rw [scan, kind_operand_iff.2 h, ih]
    | terminator operands => rfl

theorem mem_of_short {b : Bool} (h : spec.short c = some b) : c ∈ spec.optstring := by
  rw [Spec.short] at h
  split at h
  · cases h
  · split at h
    · cases h
    · rename_i d rest hdrop
      have hhead := List.head?_dropWhile_not (· ≠ c) spec.optstring
      rw [hdrop] at hhead
      obtain rfl : d = c := by simpa using hhead
      exact (List.dropWhile_sublist (· ≠ d)).subset (hdrop ▸ List.mem_cons_self)

theorem mem_of_long {o : LongOption} (h : spec.long name = some o) : o ∈ spec.longOptions := by
  rw [Spec.long] at h
  split at h
  · rename_i o' hfind
    obtain rfl := Option.some.inj h
    exact List.mem_of_find?_eq_some hfind
  · split at h
    · cases h
    · rename_i o' os hfilter
      split at h
      · obtain rfl := Option.some.inj h
        exact List.filter_sublist.subset (hfilter ▸ List.mem_cons_self)
      · cases h

/-- What holds of every option that the tables have, with or without an argument as they say, holds of
every option on a command line. -/
theorem CommandLine.forall_mem {P : Setting → Prop}
    (hflag : ∀ c, spec.short c = some false → P (c, none))
    (harg : ∀ c arg, spec.short c = some true → P (c, some arg))
    (hlong : ∀ o ∈ spec.longOptions, o.hasArg = false → P (o.val, none))
    (hlongArg : ∀ o ∈ spec.longOptions, o.hasArg = true → ∀ arg, P (o.val, some arg))
    (h : CommandLine spec ws os operands) : ∀ o ∈ os, P o := by
  have hflags : ∀ {cs : List Char}, Flags spec cs → ∀ o ∈ cs.map fun c => (c, none), P o := by
    intro cs hcs o ho
    obtain ⟨c, hc, rfl⟩ := List.mem_map.1 ho
    exact hflag c (hcs c hc)
  induction h with
  | nil => exact nofun
  | piece h hrest ih =>
    rw [List.forall_mem_append]
    refine ⟨?_, ih⟩
    cases h with
    | flags hne h => exact hflags h
    | attached h hc hne =>
      exact List.forall_mem_append.2 ⟨hflags h, List.forall_mem_singleton.2 (harg _ _ hc)⟩
    | separate h hc arg =>
      exact List.forall_mem_append.2 ⟨hflags h, List.forall_mem_singleton.2 (harg _ _ hc)⟩
    | long hne hname h ho => exact List.forall_mem_singleton.2 (hlong _ (mem_of_long h) ho)
    | longAttached hname h ho arg =>
      exact List.forall_mem_singleton.2 (hlongArg _ (mem_of_long h) ho arg)
    | longSeparate hne hname h ho arg =>
      exact List.forall_mem_singleton.2 (hlongArg _ (mem_of_long h) ho arg)
  | operand h hrest ih => exact ih
  | terminator operands => exact nofun

/-- Where nothing is wrong, all results are options. -/
theorem exists_settings (h : .invalid ∉ results) : ∃ os : List Setting, results = os.map Setting.result := by
  induction results with
  | nil => exact ⟨[], rfl⟩
  | cons r results ih =>
    rw [List.mem_cons, not_or] at h
    obtain ⟨os, rfl⟩ := ih h.2
    cases r with
    | invalid => exact absurd rfl h.1
    | option val optarg => exact ⟨(val, optarg) :: os, rfl⟩

end Accepts

end Getopt

end Foundations
