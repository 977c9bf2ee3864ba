import SystemsProgramming.Foundations.CString
import Mathlib.Data.List.Infix

/-!
# Paths

A place in a tree of directories is the list of names that lead to it from the root. A path is walked
component by component: `..` leads to the parent, and the parent of the root is the root; every other
component leads one name down. There are no symbolic links.
-/

namespace Foundations

section Walk

variable {N : Type}

/-- A component of a path that leads somewhere. -/
inductive Component (N : Type) where
  | up
  | name (n : N)
  deriving DecidableEq

/-- Where one component leads. -/
def walk (place : List N) : Component N → List N
  | .up => place.dropLast
  | .name n => place ++ [n]

/-- Where a path leads. -/
def resolve (place : List N) (path : List (Component N)) : List N := path.foldl walk place

/-- Every place on the way is below `root`, or is `root` itself. -/
def StaysBelow (root place : List N) (path : List (Component N)) : Prop :=
  ∀ pre, pre <+: path → root <+: resolve place pre

/-- How many components lead up. -/
def ups (path : List (Component N)) : Nat :=
  path.countP fun c => match c with | .up => true | .name _ => false

/-- How many components lead down. -/
def downs (path : List (Component N)) : Nat :=
  path.countP fun c => match c with | .up => false | .name _ => true

/-- No beginning of the path leads up more often than down. -/
def Descends (path : List (Component N)) : Prop := ∀ pre, pre <+: path → ups pre ≤ downs pre

instance (path : List (Component N)) : Decidable (Descends path) :=
  decidable_of_iff (∀ pre ∈ path.inits, ups pre ≤ downs pre) (by simp only [List.mem_inits, Descends])

@[simp] theorem ups_nil : ups ([] : List (Component N)) = 0 := rfl
@[simp] theorem downs_nil : downs ([] : List (Component N)) = 0 := rfl

@[simp] theorem ups_up (path : List (Component N)) : ups (.up :: path) = ups path + 1 := by
  simp [ups]

@[simp] theorem downs_up (path : List (Component N)) : downs (.up :: path) = downs path := by
  simp [downs]

@[simp] theorem ups_name (n : N) (path : List (Component N)) : ups (.name n :: path) = ups path := by
  simp [ups]

@[simp] theorem downs_name (n : N) (path : List (Component N)) :
    downs (.name n :: path) = downs path + 1 := by
  simp [downs]

variable {root place : List N} {c : Component N} {path : List (Component N)}

theorem forall_prefix_cons {α : Type} {P : List α → Prop} {a : α} {l : List α} :
    (∀ pre, pre <+: a :: l → P pre) ↔ P [] ∧ ∀ pre, pre <+: l → P (a :: pre) := by
  constructor
  · intro h
    exact ⟨h [] List.nil_prefix, fun pre hpre => h (a :: pre) ((List.prefix_cons_inj a).2 hpre)⟩
  · rintro ⟨hnil, hcons⟩ pre hpre
    cases pre with
    | nil => exact hnil
    | cons b pre =>
      obtain ⟨rfl, htail⟩ := List.cons_prefix_cons.1 hpre
      exact hcons pre htail

theorem staysBelow_cons : StaysBelow root place (c :: path) ↔
    root <+: place ∧ StaysBelow root (walk place c) path := forall_prefix_cons

theorem staysBelow_nil : StaysBelow root place [] ↔ root <+: place := by
  simp [StaysBelow, resolve]

/-- A walk that begins `l.length` names below a root that has a parent stays below it if and only if it
never leads up more often than down and `l.length` times. -/
theorem staysBelow_append_iff (hroot : root ≠ []) (l : List N) :
    StaysBelow root (root ++ l) path ↔ ∀ pre, pre <+: path → ups pre ≤ downs pre + l.length := by
  induction path generalizing l with
  | nil => simp [staysBelow_nil]
  | cons c path ih =>
    rw [staysBelow_cons, forall_prefix_cons]
    have hbelow : root <+: root ++ l := List.prefix_append root l
    cases c with
    | name n =>
      rw [walk, List.append_assoc, ih, List.length_append]
      simp only [hbelow, true_and, ups_nil, downs_nil, Nat.zero_le, ups_name, downs_name]
      exact forall₂_congr fun pre _ => by rw [List.length_singleton]; omega
    | up =>
      rcases List.eq_nil_or_concat l with rfl | ⟨l', n, rfl⟩
      · -- the parent of the root is not below it
        refine iff_of_false (fun h => ?_) fun h => ?_
        · have hparent := h.2 [] List.nil_prefix
          have hle := hparent.length_le
          have hpos := List.length_pos_iff.2 hroot
          simp only [resolve, List.foldl_nil, walk, List.append_nil, List.length_dropLast] at hle
          omega
        · have hle := h.2 [] List.nil_prefix
          simp at hle
      · have hwalk : walk (root ++ (l' ++ [n])) .up = root ++ l' := by
          rw [walk, ← List.append_assoc, List.dropLast_concat]
        rw [List.concat_eq_append, hwalk, ih]
        simp only [List.prefix_append, true_and, ups_nil, downs_nil, Nat.zero_le, ups_up, downs_up,
          List.length_append, List.length_singleton]
        exact forall₂_congr fun pre _ => by omega

/-- A walk that begins at `root` stays below it if and only if `root` is the root of the tree, or the
path never leads up more often than down. -/
theorem staysBelow_iff : StaysBelow root root path ↔ root = [] ∨ Descends path := by
  by_cases hroot : root = []
  · subst hroot
    exact iff_of_true (fun _ _ => List.nil_prefix) (Or.inl rfl)
  · have h : StaysBelow root (root ++ []) path ↔ Descends path := staysBelow_append_iff hroot []
    rw [List.append_nil] at h
    rw [h, or_iff_right hroot]

end Walk

/-! ## Paths as bytes -/

/-- What a part of a path between slashes means; an empty part and `.` lead nowhere. -/
def component (part : List UInt8) : Option (Component (List UInt8)) :=
  if part = [] ∨ part = ascii "." then none
  else if part = ascii ".." then some .up
  else some (.name part)

/-- The components of a path. -/
def components (path : List UInt8) : List (Component (List UInt8)) :=
  (path.splitOn 47).filterMap component

/-- The path begins at the root of the tree. -/
def IsAbsolute (path : List UInt8) : Prop := path.head? = some 47

instance (path : List UInt8) : Decidable (IsAbsolute path) := by
  unfold IsAbsolute
  infer_instance

/-- The place that a path names for a process that is at `cwd`. -/
def locate (cwd : List (List UInt8)) (path : List UInt8) : List (List UInt8) :=
  resolve (if IsAbsolute path then [] else cwd) (components path)

/-- The path is relative, and every place on the way is inside `cwd`. -/
def Contained (cwd : List (List UInt8)) (path : List UInt8) : Prop :=
  ¬ IsAbsolute path ∧ StaysBelow cwd cwd (components path)

theorem contained_iff {cwd : List (List UInt8)} {path : List UInt8} :
    Contained cwd path ↔ ¬ IsAbsolute path ∧ (cwd = [] ∨ Descends (components path)) := by
  rw [Contained, staysBelow_iff]

/-- A path that is contained names a place inside. -/
theorem Contained.prefix_locate {cwd : List (List UInt8)} {path : List UInt8}
    (h : Contained cwd path) : cwd <+: locate cwd path := by
  rw [locate, if_neg h.1]
  exact h.2 _ (List.prefix_refl _)

end Foundations
