import Mathlib.Logic.Function.Basic

/-!
# Descriptor tables

A process knows its open files by numbers. Here a table gives for every number the file it refers to, if
the number is in use; what a file is does not matter. `dup2` and `close` change one entry, and neither
brings in a file to which no entry referred before.
-/

namespace Foundations

/-- What the descriptors of a process refer to. -/
abbrev Descriptors (ω : Type) := Nat → Option ω

namespace Descriptors

variable {ω : Type} (t : Descriptors ω)

/-- `open`, or one end of `pipe`: the free descriptor `fd` now refers to `file`. -/
def opened (fd : Nat) (file : ω) : Descriptors ω := Function.update t fd (some file)

/-- `close(fd)` -/
def close (fd : Nat) : Descriptors ω := Function.update t fd none

/-- `dup2(oldfd, newfd)`, which fails if `oldfd` is not open. -/
def dup2 (oldfd newfd : Nat) : Descriptors ω :=
  match t oldfd with
  | some file => Function.update t newfd (some file)
  | none => t

/-- Some descriptor refers to the file. -/
def Holds (file : ω) : Prop := ∃ fd, t fd = some file

variable {t} {fd k oldfd newfd : Nat} {file file' : ω}

@[simp] theorem opened_self : t.opened fd file fd = some file := Function.update_self ..

theorem opened_of_ne (h : k ≠ fd) : t.opened fd file k = t k := Function.update_of_ne h ..

@[simp] theorem close_self : t.close fd fd = none := Function.update_self ..

theorem close_of_ne (h : k ≠ fd) : t.close fd k = t k := Function.update_of_ne h ..

/-- `dup2` from an open descriptor is what `opened` would do with its file. -/
theorem dup2_eq (h : t oldfd = some file) : t.dup2 oldfd newfd = t.opened newfd file := by
  unfold dup2
  rw [h]
  rfl

theorem dup2_eq_self (h : t oldfd = none) : t.dup2 oldfd newfd = t := by
  unfold dup2
  rw [h]

/-- What is closed again was free before. -/
theorem close_opened (h : t fd = none) : (t.opened fd file).close fd = t := by
  unfold opened close
  rw [Function.update_idem, ← h, Function.update_eq_self]

theorem opened_comm {fd' : Nat} (h : fd ≠ fd') :
    (t.opened fd file).opened fd' file' = (t.opened fd' file').opened fd file :=
  Function.update_comm h ..

theorem opened_close {fd' : Nat} (h : fd ≠ fd') :
    (t.opened fd file).close fd' = (t.close fd').opened fd file :=
  Function.update_comm h ..

/-- A file that is opened for one descriptor, with another beside it, and moved to a third. -/
theorem redirect {fd' : Nat} (hfd : t fd = none) (hfd' : t fd' = none) (hne : fd ≠ fd')
    (hnew : newfd ≠ fd) (hnew' : newfd ≠ fd') :
    ((((t.opened fd file).opened fd' file').dup2 fd newfd).close fd').close fd =
      t.opened newfd file := by
  have hopen : (t.opened fd file).opened fd' file' fd = some file := by
    rw [opened_of_ne hne, opened_self]
  have hfree : t.opened fd file fd' = none := by rw [opened_of_ne hne.symm, hfd']
  rw [dup2_eq hopen, opened_close hnew', close_opened hfree, opened_close hnew, close_opened hfd]

theorem Holds.of_close (h : (t.close fd).Holds file) : t.Holds file := by
  obtain ⟨k, hk⟩ := h
  by_cases hne : k = fd
  · rw [hne, close_self] at hk
    cases hk
  · exact ⟨k, (close_of_ne hne).symm.trans hk⟩

theorem Holds.of_opened (h : (t.opened fd file').Holds file) (hne : file' ≠ file) :
    t.Holds file := by
  obtain ⟨k, hk⟩ := h
  by_cases hk' : k = fd
  · rw [hk', opened_self] at hk
    exact absurd (Option.some.inj hk) hne
  · exact ⟨k, (opened_of_ne hk').symm.trans hk⟩

theorem Holds.of_dup2 (h : (t.dup2 oldfd newfd).Holds file) : t.Holds file := by
  cases hold : t oldfd with
  | none => rwa [dup2_eq_self hold] at h
  | some old =>
    rw [dup2_eq hold] at h
    by_cases hne : old = file
    · exact ⟨oldfd, by rw [hold, hne]⟩
    · exact h.of_opened hne

/-! ## A sequence of calls -/

/-- A call that changes the table. -/
inductive Op where
  | dup2 (oldfd newfd : Nat)
  | close (fd : Nat)
  deriving DecidableEq

/-- The table after one call. -/
def Op.apply (t : Descriptors ω) : Op → Descriptors ω
  | .dup2 oldfd newfd => t.dup2 oldfd newfd
  | .close fd => t.close fd

/-- The table after all the calls. -/
def applyAll (t : Descriptors ω) (ops : List Op) : Descriptors ω := ops.foldl Op.apply t

end Descriptors

end Foundations
