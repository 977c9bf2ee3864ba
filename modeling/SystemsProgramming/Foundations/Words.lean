import Mathlib.Data.List.TakeWhile

/-!
# Words

The words of a text are what lies between its separators, where that is not empty. They can be taken
off one after another: the separators in front, the word, and the one separator behind it.
-/

namespace Foundations

variable {α : Type} {p : α → Bool} {a : α} {s : List α}

/-- The words of a text whose separators are the elements with the property `p`. -/
def words (p : α → Bool) (s : List α) : List (List α) := (s.splitOnP p).filter (· ≠ [])

@[simp] theorem words_nil : words p [] = [] := rfl

theorem words_cons_sep (h : p a = true) : words p (a :: s) = words p s := by
  rw [words, List.splitOnP_cons_eq_if_modifyHead, if_pos h]
  simp [words]

/-- The separators in front make no words. -/
theorem words_dropWhile (p : α → Bool) (s : List α) : words p (s.dropWhile p) = words p s := by
  induction s with
  | nil => rfl
  | cons a s ih =>
    rw [List.dropWhile_cons]
    split
    · rename_i h
      rw [ih, words_cons_sep h]
    · rfl

/-- The first word ends before the first separator. -/
theorem words_cons_of_not (h : p a = false) :
    words p (a :: s) = (a :: s).takeWhile (fun b => !p b) ::
      words p ((a :: s).dropWhile fun b => !p b).tail := by
  have hword : ∀ b ∈ (a :: s).takeWhile (fun b => !p b), p b = false := by
    intro b hb
    simpa using List.mem_takeWhile_imp hb
  have hne : (a :: s).takeWhile (fun b => !p b) ≠ [] := by simp [h]
  have hsplit := List.takeWhile_append_dropWhile (p := fun b => !p b) (l := a :: s)
  generalize (a :: s).takeWhile (fun b => !p b) = word at hword hne hsplit ⊢
  rw [← hsplit, List.dropWhile_append_of_pos fun b hb => by simp [hword b hb]]
  cases hrest : (a :: s).dropWhile (fun b => !p b) with
  | nil => simp [words, List.splitOnP_eq_singleton hword, hne]
  | cons sep rest =>
    have hsep : p sep = true := by
      have hhead := List.head_dropWhile_not (p := fun b => !p b) (l := a :: s) (by simp [hrest])
      simpa [hrest] using hhead
    rw [List.dropWhile_cons, if_neg (by simp [hsep]), List.tail_cons, words,
      List.splitOnP_append_cons_of_forall_mem hword sep hsep]
    simp [words, hne]

/-! ## Counting the words -/

/-- The number of words that begin in a text, behind a word that is still going on or not. -/
def starts (p : α → Bool) : Bool → List α → Nat
  | _, [] => 0
  | inWord, a :: s => if p a then starts p false s else (if inWord then 0 else 1) + starts p true s

/-- A word that is going on ends before the first separator. -/
theorem starts_true_eq (p : α → Bool) (s : List α) :
    starts p true s = starts p false (s.dropWhile fun b => !p b).tail := by
  induction s with
  | nil => rfl
  | cons a s ih =>
    rw [starts, List.dropWhile_cons]
    by_cases h : p a = true
    · simp [h]
    · simp [h, ih]

/-- There are as many words as begin. -/
theorem starts_false_eq (p : α → Bool) (s : List α) : starts p false s = (words p s).length := by
  induction hn : s.length using Nat.strongRecOn generalizing s with
  | ind n ih =>
    subst hn
    cases s with
    | nil => rfl
    | cons a s =>
      rw [starts]
      by_cases h : p a = true
      · rw [if_pos h, words_cons_sep h]
        exact ih s.length (Nat.lt_succ_self _) s rfl
      · have h' : p a = false := by simpa using h
        have hdrop : ((a :: s).dropWhile fun b => !p b) = s.dropWhile fun b => !p b := by
          simp [h']
        have hle : ((s.dropWhile fun b => !p b).tail).length < (a :: s).length := by
          have hdl := (List.dropWhile_suffix (l := s) fun b => !p b).length_le
          rw [List.length_tail, List.length_cons]
          omega
        rw [if_neg h, words_cons_of_not h', List.length_cons, hdrop, starts_true_eq,
          ih _ hle _ rfl]
        exact Nat.add_comm _ _

/-- Of a text that does not begin with a separator, the first word is not counted if it is taken for the
rest of one. -/
theorem starts_true_add (p : α → Bool) (s : List α) :
    starts p true s + (if s.head?.any (fun a => !p a) then 1 else 0) = (words p s).length := by
  rw [← starts_false_eq]
  cases s with
  | nil => rfl
  | cons a s => cases h : p a <;> simp [starts, h, Nat.add_comm]

end Foundations
