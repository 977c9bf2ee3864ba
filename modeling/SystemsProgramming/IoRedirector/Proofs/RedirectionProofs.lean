import SystemsProgramming.IoRedirector.Redirector

/-!
# Proofs: the descriptors of the command

The child closes the descriptor that `open` has returned, whatever it is. When that is the target itself,
`dup2` changes nothing and the target is closed in the end.
-/

namespace SystemsProgramming.IoRedirector

open Foundations Descriptors

variable {ω : Type} {sys : System ω} {t : Descriptors ω}

/-- The target refers to the file, and every other descriptor is the parent's. -/
def Redirected (parent child : Descriptors ω) (target : Nat) (file : ω) : Prop :=
  child target = some file ∧ ∀ k, k ≠ target → child k = parent k

/-- The operators, each with the descriptor it is for. -/
def operators : List (List UInt8 × Nat) := [(ascii "out", 1), (ascii "out_a", 1), (ascii "in", 0)]

/-! ## The child -/

/-- `open` returns another descriptor than the target if the target is in use, or a lower one is free. -/
theorem Opening.fd_ne_iff (o : Opening t) (k : Nat) :
    o.fd ≠ k ↔ t k ≠ none ∨ ∃ j < k, t j = none := by
  constructor
  · intro hne
    rcases Nat.lt_or_gt_of_ne hne with hlt | hgt
    · exact Or.inr ⟨o.fd, hlt, o.free⟩
    · exact Or.inl (o.lowest k hgt)
  · rintro (hopen | ⟨j, hj, hfree⟩) rfl
    · exact hopen o.free
    · exact o.lowest j hj hfree

/-- The file is moved to the target. -/
theorem childTable_of_ne (flags : UInt32) (o : Opening t) (h : o.fd ≠ target flags) :
    childTable flags o = t.opened (target flags) o.file := by
  rw [childTable, dup2_eq opened_self, opened_close h.symm, close_opened o.free]

/-- The file is closed again. -/
theorem childTable_of_eq (flags : UInt32) (o : Opening t) (h : o.fd = target flags) :
    childTable flags o = t := by
  have hsame : (t.opened o.fd o.file).dup2 o.fd o.fd = t.opened o.fd o.file := by
    rw [dup2_eq opened_self, opened, opened, Function.update_idem]
  rw [childTable, ← h, hsame, close_opened o.free]

theorem redirected_childTable_iff (flags : UInt32) (o : Opening t) :
    Redirected t (childTable flags o) (target flags) o.file ↔ o.fd ≠ target flags := by
  constructor
  · rintro ⟨htarget, -⟩ heq
    rw [childTable_of_eq flags o heq, ← heq, o.free] at htarget
    cases htarget
  · intro hne
    rw [childTable_of_ne flags o hne]
    exact ⟨opened_self, fun k hk => opened_of_ne hk⟩

/-! ## The program -/

/-- The command is executed with the descriptors of the child, which has the target of the operator. -/
theorem executes_eq {argv0 cmd cmd' operator file : CStr} {rest : List CStr} {k : Nat}
    {o : Opening sys.table} {table : Descriptors ω} (hoperator : (operator.bytes, k) ∈ operators)
    (h : main sys (argv0 :: cmd :: operator :: file :: rest) = .executes cmd' o table) :
    ∃ flags, target flags = k ∧ table = childTable flags o := by
  have hrun : ∀ flags, run sys cmd file flags = .executes cmd' o table → table = childTable flags o := by
    intro flags hexec
    unfold run at hexec
    split at hexec
    · split at hexec
      · cases hexec
        rfl
      · cases hexec
    · cases hexec
  rw [main] at h
  simp only [operators, List.mem_cons, List.not_mem_nil, or_false, Prod.mk.injEq] at hoperator
  rcases hoperator with ⟨hop, rfl⟩ | ⟨hop, rfl⟩ | ⟨hop, rfl⟩
  · have hparse : parseOp operator = .out := by rw [parseOp, if_pos hop]
    rw [hparse] at h
    exact ⟨_, by decide, hrun _ h⟩
  · have hparse : parseOp operator = .outA := by
      rw [parseOp, if_neg (by rw [hop]; decide), if_pos hop]
    rw [hparse] at h
    exact ⟨_, by decide, hrun _ h⟩
  · have hparse : parseOp operator = .input := by
      rw [parseOp, if_neg (by rw [hop]; decide), if_neg (by rw [hop]; decide), if_pos hop]
    rw [hparse] at h
    exact ⟨_, by decide, hrun _ h⟩

/-- The command runs with its target redirected to the file and everything else as in the parent, if and
only if the target is in use in the parent or a lower descriptor is free. -/
theorem redirected_iff {argv0 cmd cmd' operator file : CStr} {rest : List CStr} {k : Nat}
    {o : Opening sys.table} {table : Descriptors ω} (hoperator : (operator.bytes, k) ∈ operators)
    (h : main sys (argv0 :: cmd :: operator :: file :: rest) = .executes cmd' o table) :
    Redirected sys.table table k o.file ↔
      sys.table k ≠ none ∨ ∃ j < k, sys.table j = none := by
  obtain ⟨flags, rfl, rfl⟩ := executes_eq hoperator h
  rw [redirected_childTable_iff, o.fd_ne_iff]

/-- A program with the descriptors 0, 1 and 2. -/
def threeOpen : System Nat where
  table := fun k => if k < 3 then some k else none
  fork := true
  openFile := fun _ _ => some ⟨3, 9, rfl, fun k hk => by simp [hk]⟩

/-- A program that was started with its standard output closed. -/
def outputClosed : System Nat where
  table := fun k => if k = 0 ∨ k = 2 then some k else none
  fork := true
  openFile := fun _ _ => some ⟨1, 9, rfl, fun k hk => by simp [Nat.lt_one_iff.1 hk]⟩

/-- The arguments of `./main ls out_a list`. -/
def appendList : List CStr :=
  [⟨ascii "./main", by decide⟩, ⟨ascii "ls", by decide⟩, ⟨ascii "out_a", by decide⟩,
    ⟨ascii "list", by decide⟩]

theorem output_appended : ∃ (cmd : CStr) (o : Opening threeOpen.table) (table : Descriptors Nat),
    main threeOpen appendList = .executes cmd o table ∧ Redirected threeOpen.table table 1 o.file := by
  have hexec : main threeOpen appendList = .executes _ _ _ := rfl
  exact ⟨_, _, _, hexec, (redirected_iff (k := 1) (by decide) hexec).2 (Or.inl (by decide))⟩

/-- `open` returns the target, which is closed again before the command runs. -/
theorem closed_output_lost : ¬ ∀ (sys : System Nat) (argv0 cmd cmd' operator file : CStr)
    (rest : List CStr) (k : Nat) (o : Opening sys.table) (table : Descriptors Nat),
    (operator.bytes, k) ∈ operators →
    main sys (argv0 :: cmd :: operator :: file :: rest) = .executes cmd' o table →
    Redirected sys.table table k o.file := by
  intro h
  have hexec : main outputClosed appendList = .executes _ _ _ := rfl
  have hredirected := h outputClosed _ _ _ _ _ _ 1 _ _ (by decide) hexec
  exact absurd hredirected.1 (by decide)

end SystemsProgramming.IoRedirector
