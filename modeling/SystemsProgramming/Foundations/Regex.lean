import Mathlib.Data.List.Basic

/-!
# Regular expressions

The matching relation of regular expressions with groups, as POSIX has it: which texts an expression
matches, and what its groups capture. `Found` is the match at the beginning of a string that
`regexec` looks for when the expression starts with `^`: the longest one.
-/

namespace Foundations

/-- Regular expressions over the characters `α`. -/
inductive Regex (α : Type) where
  | empty
  | one (p : α → Bool)
  | seq (r s : Regex α)
  | many (r : Regex α)
  | group (r : Regex α)

namespace Regex

variable {α : Type}

/-- `r.Matches t gs`: the expression matches the text `t`, and its groups capture `gs`, in the order of
their opening parentheses. Groups inside a repetition are not reported. -/
inductive Matches : Regex α → List α → List (List α) → Prop where
  | empty : Matches empty [] []
  | one {p : α → Bool} {a : α} (h : p a = true) : Matches (one p) [a] []
  | seq {r s : Regex α} {t u : List α} {gs hs : List (List α)} (hr : Matches r t gs)
      (hs' : Matches s u hs) : Matches (seq r s) (t ++ u) (gs ++ hs)
  | manyNil {r : Regex α} : Matches (many r) [] []
  | manyCons {r : Regex α} {t u : List α} {gs : List (List α)} (hr : Matches r t gs)
      (hm : Matches (many r) u []) : Matches (many r) (t ++ u) []
  | group {r : Regex α} {t : List α} {gs : List (List α)} (hr : Matches r t gs) :
      Matches (group r) t (t :: gs)

/-- The expression that matches one text only. -/
def literal [DecidableEq α] (s : List α) : Regex α :=
  s.foldr (fun a r => seq (one (· == a)) r) empty

variable {r s : Regex α} {t : List α} {gs : List (List α)}

theorem matches_empty : (empty : Regex α).Matches t gs ↔ t = [] ∧ gs = [] := by
  constructor
  · rintro ⟨⟩
    exact ⟨rfl, rfl⟩
  · rintro ⟨rfl, rfl⟩
    exact .empty

theorem matches_one {p : α → Bool} :
    (one p).Matches t gs ↔ ∃ a, p a = true ∧ t = [a] ∧ gs = [] := by
  constructor
  · intro h
    cases h with
    | one h => exact ⟨_, h, rfl, rfl⟩
  · rintro ⟨a, h, rfl, rfl⟩
    exact .one h

theorem matches_seq : (seq r s).Matches t gs ↔ ∃ t₁ t₂ gs₁ gs₂,
    r.Matches t₁ gs₁ ∧ s.Matches t₂ gs₂ ∧ t = t₁ ++ t₂ ∧ gs = gs₁ ++ gs₂ := by
  constructor
  · intro h
    cases h with
    | seq hr hs => exact ⟨_, _, _, _, hr, hs, rfl, rfl⟩
  · rintro ⟨t₁, t₂, gs₁, gs₂, hr, hs, rfl, rfl⟩
    exact .seq hr hs

theorem matches_group : (group r).Matches t gs ↔ ∃ hs, r.Matches t hs ∧ gs = t :: hs := by
  constructor
  · intro h
    cases h with
    | group hr => exact ⟨_, hr, rfl⟩
  · rintro ⟨hs, hr, rfl⟩
    exact .group hr

/-- A repetition of one character. -/
theorem matches_many_one {p : α → Bool} :
    (many (one p)).Matches t gs ↔ (∀ a ∈ t, p a = true) ∧ gs = [] := by
  constructor
  · intro h
    generalize hr : many (one p) = r at h
    induction h with
    | manyNil => exact ⟨by simp, rfl⟩
    | manyCons h1 _ _ ih =>
      obtain ⟨hall, -⟩ := ih hr
      obtain rfl : one p = _ := by simpa using hr
      obtain ⟨a, ha, rfl, -⟩ := matches_one.1 h1
      refine ⟨fun b hb => ?_, rfl⟩
      rcases List.mem_cons.1 hb with rfl | hb
      · exact ha
      · exact hall b hb
    | _ => cases hr
  · rintro ⟨hall, rfl⟩
    induction t with
    | nil => exact .manyNil
    | cons a t ih =>
      obtain ⟨ha, hall'⟩ := List.forall_mem_cons.1 hall
      exact .manyCons (.one ha) (ih hall')

theorem matches_literal [DecidableEq α] {u : List α} :
    (literal u).Matches t gs ↔ t = u ∧ gs = [] := by
  induction u generalizing t gs with
  | nil => exact matches_empty
  | cons a u ih =>
    have hlit : literal (a :: u) = seq (one (· == a)) (literal u) := rfl
    rw [hlit, matches_seq]
    constructor
    · rintro ⟨t₁, t₂, gs₁, gs₂, h1, h2, rfl, rfl⟩
      obtain ⟨b, hb, rfl, rfl⟩ := matches_one.1 h1
      obtain ⟨rfl, rfl⟩ := ih.1 h2
      obtain rfl : b = a := by simpa using hb
      exact ⟨rfl, rfl⟩
    · rintro ⟨rfl, rfl⟩
      exact ⟨[a], u, [], [], .one (by simp), ih.2 ⟨rfl, rfl⟩, rfl, rfl⟩

/-- The match of an anchored expression in a string: a text at the beginning of the string that the
expression matches, and there is no longer one. -/
structure Found (r : Regex α) (string t : List α) (gs : List (List α)) : Prop where
  isPrefix : t <+: string
  isMatch : r.Matches t gs
  longest : ∀ u hs, u <+: string → r.Matches u hs → u.length ≤ t.length

end Regex

end Foundations
