import SystemsProgramming.Foundations.Words
import SystemsProgramming.TextReadability.Parser
import Mathlib.Logic.Function.Iterate
import Mathlib.Data.List.Chain

/-!
# Proofs: the words and sentences that are counted

`parser` counts a word where it takes itself to be outside of one, and `main` has counted the first word
already. A sentence is counted at every terminator that differs from the character before. Both counters
stop at `2 ^ 24`.
-/

namespace SystemsProgramming.TextReadability

open Foundations

variable {v : Vars} {text : List UInt8} {state : Int32}

/-! ## The counters -/

theorem increment_eq {n : Nat} (hn : n ≤ 2 ^ 24) : increment n = min (n + 1) (2 ^ 24) := by
  unfold increment
  split <;> omega

theorem iterate_increment {n : Nat} (hn : n ≤ 2 ^ 24) (k : Nat) :
    increment^[k] n = min (n + k) (2 ^ 24) := by
  induction k generalizing n with
  | zero => exact (Nat.min_eq_left hn).symm
  | succ k ih =>
    rw [Function.iterate_succ_apply, increment_eq hn, ih (Nat.min_le_right ..)]
    omega

/-! ## Words -/

/-- What is between the words. -/
def isSeparator (c : UInt8) : Bool := isBlank c || c = 10

theorem countWord_eq (c : UInt8) (v : Vars) : countWord c v =
    if isSeparator c then { v with state := outWord }
    else if v.state = outWord then { v with words := increment v.words, state := inWord }
    else v := by
  have hiff : (isBlank c = true ∨ c = 10) ↔ isSeparator c = true := by
    rw [isSeparator, Bool.or_eq_true, decide_eq_true_iff]
  unfold countWord
  simp only [hiff]

theorem countLetter_eq (c : UInt8) (v : Vars) :
    ∃ letters, countLetter c v = { v with letters := letters } := by
  unfold countLetter
  split
  · exact ⟨_, rfl⟩
  · exact ⟨_, rfl⟩

theorem countSentence_eq (previous : Option UInt8) (c : UInt8) (v : Vars) :
    ∃ sentences, countSentence previous c v = { v with sentences := sentences } := by
  unfold countSentence
  split
  · exact ⟨_, rfl⟩
  · split
    · exact ⟨_, rfl⟩
    · exact ⟨_, rfl⟩

/-- The words are counted where they begin, but for one that `state` takes to be going on. -/
theorem words_parserLoop (previous : Option UInt8) (text : List UInt8) (v : Vars) :
    (parserLoop previous text v).words =
      increment^[starts isSeparator (v.state ≠ outWord) text] v.words := by
  induction text generalizing previous v with
  | nil => rfl
  | cons c text ih =>
    obtain ⟨letters, hletter⟩ := countLetter_eq c v
    obtain ⟨sentences, hsentence⟩ := countSentence_eq previous c (countWord c (countLetter c v))
    rw [parserLoop, hsentence, hletter, ih, countWord_eq, starts]
    by_cases hsep : isSeparator c = true
    · simp [hsep]
    · by_cases hstate : v.state = outWord
      · have hne : inWord ≠ outWord := by decide
        simp [hsep, hstate, hne, Nat.add_comm 1]
      · simp [hsep, hstate]

/-- The words of a text. -/
def wordCount (text : List UInt8) : Nat := (words isSeparator text).length

theorem parser_words (text : List UInt8) (state : Int32) : (parser text (initial state)).words =
    min (1 + starts isSeparator (state ≠ outWord) text) (2 ^ 24) := by
  rw [parser, words_parserLoop]
  exact iterate_increment (show 1 ≤ 2 ^ 24 by decide) _

/-- For a text with words, the count is right if and only if there are not more words than a `float` can
count, and the text begins with a word and `state` does not happen to be `OUT_WORD`, or there are so many
words that the one too many is lost. -/
theorem words_counted_iff (hwords : wordCount text ≠ 0) :
    (parser text (initial state)).words = wordCount text ↔
      wordCount text ≤ 2 ^ 24 ∧
        ((state ≠ outWord ∧ ∀ c ∈ text.head?, isSeparator c = false) ∨ wordCount text = 2 ^ 24) := by
  rw [parser_words]
  by_cases hstate : state = outWord
  · have hcount : starts isSeparator (decide (state ≠ outWord)) text = wordCount text := by
      simp only [hstate, ne_eq, not_true, decide_false]
      exact starts_false_eq isSeparator text
    rw [hcount]
    simp only [hstate, ne_eq, not_true, false_and, false_or]
    omega
  · have hadd := starts_true_add isSeparator text
    have htrue : decide (state ≠ outWord) = true := decide_eq_true hstate
    rw [htrue]
    by_cases hhead : ∀ c ∈ text.head?, isSeparator c = false
    · have hany : (text.head?.any fun c => !isSeparator c) = true := by
        cases text with
        | nil => exact absurd rfl hwords
        | cons c text => simp [hhead c rfl]
      rw [hany, if_pos rfl] at hadd
      rw [and_iff_left (Or.inl ⟨hstate, hhead⟩), wordCount]
      omega
    · have hany : ¬ (text.head?.any fun c => !isSeparator c) = true := by
        intro h
        refine hhead fun c hc => ?_
        rw [Option.mem_def.1 hc] at h
        simpa using h
      rw [if_neg hany] at hadd
      rw [or_iff_right fun h => hhead h.2, wordCount]
      omega

/-- A text that begins with a word, on a machine where `state` happens to be 7. -/
theorem two_words_counted : (parser (ascii "two  words \n") (initial 7)).words = 2 := by
  have hwords : wordCount (ascii "two  words \n") ≠ 0 := by decide
  have hfirst : ∀ c ∈ (ascii "two  words \n").head?, isSeparator c = false := by
    intro c hc
    obtain rfl := Option.some.inj hc
    rfl
  exact (words_counted_iff hwords).2 ⟨by decide, Or.inl ⟨by decide, hfirst⟩⟩

/-- A blank in front of the first word makes it count twice. -/
theorem leading_blank_counted : ¬ ∀ (text : List UInt8) (state : Int32), wordCount text ≠ 0 →
    (parser text (initial state)).words = wordCount text := by
  intro h
  have hcount := h (ascii " word") 1 (by decide)
  revert hcount
  decide

/-! ## Sentences -/

/-- What ends a sentence. -/
def isTerminator (c : UInt8) : Bool := c = 46 || c = 33 || c = 63

/-- The blocks of terminators in a text. -/
def blockCount (text : List UInt8) : Nat := (words (fun c => !isTerminator c) text).length

/-- No terminator is followed by another one of a different kind. -/
def Uniform (text : List UInt8) : Prop :=
  text.IsChain fun a b => isTerminator a = true → isTerminator b = true → a = b

theorem countSentence_some (p c : UInt8) (v : Vars) : countSentence (some p) c v =
    if isTerminator c ∧ p ≠ c then { v with sentences := increment v.sentences } else v := by
  have hiff : (p ≠ 33 ∧ c = 33) ∨ (p ≠ 63 ∧ c = 63) ∨ (p ≠ 46 ∧ c = 46) ↔
      isTerminator c = true ∧ p ≠ c := by
    simp only [isTerminator, Bool.or_eq_true, decide_eq_true_iff]
    constructor
    · rintro (⟨hp, rfl⟩ | ⟨hp, rfl⟩ | ⟨hp, rfl⟩)
      · exact ⟨Or.inl (Or.inr rfl), hp⟩
      · exact ⟨Or.inr rfl, hp⟩
      · exact ⟨Or.inl (Or.inl rfl), hp⟩
    · rintro ⟨(rfl | rfl) | rfl, hp⟩
      · exact Or.inr (Or.inr ⟨hp, rfl⟩)
      · exact Or.inl ⟨hp, rfl⟩
      · exact Or.inr (Or.inl ⟨hp, rfl⟩)
  unfold countSentence
  simp only [hiff]

/-- The letters and words are counted apart. -/
theorem sentences_before (c : UInt8) (v : Vars) :
    (countWord c (countLetter c v)).sentences = v.sentences := by
  obtain ⟨letters, hletter⟩ := countLetter_eq c v
  rw [hletter, countWord_eq]
  split
  · rfl
  · split <;> rfl

/-- The terminators that differ from the character before. -/
def changes : UInt8 → List UInt8 → Nat
  | _, [] => 0
  | p, c :: text => (if isTerminator c ∧ p ≠ c then 1 else 0) + changes c text

/-- And follow a terminator. -/
def mixed : UInt8 → List UInt8 → Nat
  | _, [] => 0
  | p, c :: text => (if isTerminator p ∧ isTerminator c ∧ p ≠ c then 1 else 0) + mixed c text

/-- Every change is counted. -/
theorem sentences_parserLoop (p : UInt8) (text : List UInt8) (v : Vars) :
    (parserLoop (some p) text v).sentences = increment^[changes p text] v.sentences := by
  induction text generalizing p v with
  | nil => rfl
  | cons c text ih =>
    have hkeep := sentences_before c v
    rw [parserLoop, countSentence_some, ih, changes]
    split
    · simp only [hkeep]
      rw [Nat.add_comm, Function.iterate_succ_apply]
    · rw [hkeep, Nat.zero_add]

/-- A change begins a block, or lies inside of one. -/
theorem changes_eq (p : UInt8) (text : List UInt8) :
    changes p text = starts (fun c => !isTerminator c) (isTerminator p) text + mixed p text := by
  induction text generalizing p with
  | nil => rfl
  | cons c text ih =>
    rw [changes, starts, mixed, ih]
    by_cases hc : isTerminator c = true
    · by_cases hp : isTerminator p = true
      · simp only [hc, hp, Bool.not_true, Bool.false_eq_true, if_false, if_true, true_and]
        omega
      · have hne : p ≠ c := by
          rintro rfl
          exact hp hc
        simp only [hc, hp, hne, Bool.not_true, Bool.false_eq_true, if_false, if_true, ne_eq,
          not_false_eq_true, and_self, false_and]
        omega
    · simp [hc]

theorem mixed_eq_zero_iff (p : UInt8) (text : List UInt8) :
    mixed p text = 0 ↔ Uniform (p :: text) := by
  unfold Uniform
  induction text generalizing p with
  | nil => simp [mixed]
  | cons c text ih =>
    rw [mixed, List.isChain_cons_cons, ← ih, Nat.add_eq_zero_iff]
    refine and_congr_left fun _ => ?_
    constructor
    · intro h hp hc
      by_contra hne
      rw [if_pos ⟨hp, hc, hne⟩] at h
      cases h
    · intro h
      exact if_neg fun hmixed => hmixed.2.2 (h hmixed.1 hmixed.2.1)

/-- What is counted in a text that does not begin with a terminator, with what is counted too much. -/
theorem parser_sentences (hfirst : ∀ c ∈ text.head?, isTerminator c = false) (state : Int32) :
    ∃ extra, (parser text (initial state)).sentences = min (blockCount text + extra) (2 ^ 24) ∧
      (extra = 0 ↔ Uniform text) := by
  cases text with
  | nil => exact ⟨0, rfl, by simp [Uniform]⟩
  | cons c text =>
    have hc : isTerminator c = false := hfirst c rfl
    have hloop := sentences_parserLoop c text (countWord c (countLetter c (initial state)))
    have hkeep : (countWord c (countLetter c (initial state))).sentences = 0 :=
      sentences_before c (initial state)
    have hblocks : blockCount (c :: text) = starts (fun c => !isTerminator c) false text := by
      rw [blockCount, ← starts_false_eq, starts, if_pos (by rw [hc]; rfl)]
    refine ⟨mixed c text, ?_, mixed_eq_zero_iff c text⟩
    rw [parser, parserLoop, countSentence, hloop, hkeep, iterate_increment (Nat.zero_le _), changes_eq,
      hc, hblocks, Nat.zero_add]

/-- The count is right if and only if there are not more blocks than a `float` can count, and no block has
terminators of two kinds side by side, or there are so many blocks that what is counted too much is
lost. -/
theorem sentences_counted_iff (hfirst : ∀ c ∈ text.head?, isTerminator c = false) (state : Int32) :
    (parser text (initial state)).sentences = blockCount text ↔
      blockCount text ≤ 2 ^ 24 ∧ (Uniform text ∨ blockCount text = 2 ^ 24) := by
  obtain ⟨extra, hcount, huniform⟩ := parser_sentences hfirst state
  rw [hcount, ← huniform]
  omega

/-- Three points end one sentence. -/
theorem ellipsis_counted : (parser (ascii "Well... Yes!") (initial 1)).sentences = 2 := by
  have hfirst : ∀ c ∈ (ascii "Well... Yes!").head?, isTerminator c = false := by
    intro c hc
    obtain rfl := Option.some.inj hc
    rfl
  have huniform : Uniform (ascii "Well... Yes!") :=
    (mixed_eq_zero_iff 87 (ascii "ell... Yes!")).1 (by decide)
  exact (sentences_counted_iff hfirst 1).2 ⟨by decide, Or.inl huniform⟩

/-- A question mark and an exclamation mark are counted as two. -/
theorem interrobang_counted_twice : ¬ ∀ (text : List UInt8) (state : Int32),
    (∀ c ∈ text.head?, isTerminator c = false) →
    (parser text (initial state)).sentences = blockCount text := by
  intro h
  have hfirst : ∀ c ∈ (ascii "What?!").head?, isTerminator c = false := by
    intro c hc
    obtain rfl := Option.some.inj hc
    rfl
  have hcount := h (ascii "What?!") 1 hfirst
  revert hcount
  decide

end SystemsProgramming.TextReadability
