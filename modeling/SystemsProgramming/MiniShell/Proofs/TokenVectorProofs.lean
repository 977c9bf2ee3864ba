import SystemsProgramming.Foundations.Words
import SystemsProgramming.MiniShell.Buffers

/-!
# Proofs: the room in the vector of tokens

`buffer_size` counts bytes, but `position` is compared with it as if it counted pointers. So the block
has room for eight of them until the sixty-fourth token has been stored.
-/

namespace SystemsProgramming.MiniShell

open Foundations

variable {v : TokenVector} {ts : List (List UInt8)} {text : List UInt8}

/-! ## The tokens are the words of the line -/

theorem strtok_eq_none (h : strtok text = none) : words (· ∈ strtokDelim) text = [] := by
  unfold strtok at h
  split at h
  · rename_i hdrop
    rw [← words_dropWhile, hdrop, words_nil]
  · cases h

/-- `strtok` takes off the first word, and some of the text with it. -/
theorem strtok_eq_some {token rest : List UInt8} (h : strtok text = some (token, rest)) :
    words (· ∈ strtokDelim) text = token :: words (· ∈ strtokDelim) rest ∧
      rest.length < text.length := by
  unfold strtok at h
  split at h
  · cases h
  · rename_i c s hdrop
    have hc : decide (c ∈ strtokDelim) = false := by
      have hhead := List.head?_dropWhile_not (fun b => decide (b ∈ strtokDelim)) text
      rw [hdrop] at hhead
      exact hhead
    have hle : (c :: s).length ≤ text.length := hdrop ▸ (List.dropWhile_suffix _).length_le
    have htail : ((c :: s).dropWhile fun b => decide (b ∉ strtokDelim)).tail.length ≤ s.length := by
      rw [List.length_tail]
      have hdl := (List.dropWhile_suffix (l := c :: s) fun b => decide (b ∉ strtokDelim)).length_le
      rw [List.length_cons] at hdl
      omega
    cases h
    rw [List.length_cons] at hle
    refine ⟨?_, by omega⟩
    rw [← words_dropWhile, hdrop, words_cons_of_not (p := fun b => decide (b ∈ strtokDelim)) hc]
    simp only [decide_not]

theorem tokens_eq_words {fuel : Nat} (h : text.length ≤ fuel) :
    tokens fuel text = words (· ∈ strtokDelim) text := by
  induction fuel generalizing text with
  | zero =>
    obtain rfl := List.eq_nil_of_length_eq_zero (Nat.le_zero.1 h)
    rfl
  | succ fuel ih =>
    rw [tokens]
    cases hstrtok : strtok text with
    | none => rw [strtok_eq_none hstrtok]
    | some p =>
      obtain ⟨token, rest⟩ := p
      obtain ⟨hwords, hlt⟩ := strtok_eq_some hstrtok
      rw [hwords]
      exact congrArg _ (ih (by omega))

theorem tokenize_eq_words (line : List UInt8) :
    tokenize line = words (· ∈ strtokDelim) (cString line) :=
  tokens_eq_words (List.takeWhile_prefix _).length_le

/-! ## The stores -/

namespace TokenVector

/-- The vector when so many tokens have been stored. -/
def after (v : TokenVector) : Nat → TokenVector
  | 0 => v
  | k + 1 => v.push.after k

/-- There is one store for each token, and one more. -/
theorem mem_stores {store : TokenStore} :
    store ∈ v.stores ts ↔ ∃ k ≤ ts.length, store = (v.after k).store := by
  induction ts generalizing v with
  | nil =>
    rw [stores, List.mem_singleton]
    constructor
    · exact fun h => ⟨0, Nat.le_refl 0, h⟩
    · rintro ⟨k, hk, h⟩
      obtain rfl := Nat.le_zero.1 hk
      exact h
  | cons t ts ih =>
    rw [stores, List.mem_cons, ih]
    constructor
    · rintro (h | ⟨k, hk, h⟩)
      · exact ⟨0, Nat.zero_le _, h⟩
      · exact ⟨k + 1, Nat.succ_le_succ hk, h⟩
    · rintro ⟨k, hk, h⟩
      cases k with
      | zero => exact Or.inl h
      | succ k => exact Or.inr ⟨k, Nat.le_of_succ_le_succ hk, h⟩

/-- Until `position` reaches `buffer_size` the block stays as it is. -/
theorem after_eq {k : Nat} (h : v.position + k < v.bufferSize) :
    v.after k = { v with position := v.position + k } := by
  induction k generalizing v with
  | zero => rfl
  | succ k ih =>
    have hpush : v.push = { v with position := v.position + 1 } := if_neg (by omega)
    rw [after, hpush, ih (by simp only; omega)]
    simp only [mk.injEq, true_and, and_true]
    omega

end TokenVector

/-- Every store of `tokenize` lies inside the block if and only if the line has at most seven words. -/
theorem stores_inside_iff (line : List UInt8) :
    (∀ store ∈ tokenStores line, store.Inside) ↔
      (words (· ∈ strtokDelim) (cString line)).length ≤ 7 := by
  have hinside : ∀ k < 64, (TokenVector.initial.after k).store.Inside ↔ k ≤ 7 := by
    intro k hk
    have hafter : TokenVector.initial.after k = { TokenVector.initial with position := 0 + k } :=
      TokenVector.after_eq (show 0 + k < 64 by omega)
    rw [hafter, TokenStore.Inside]
    show 8 * (0 + k + 1) ≤ 64 ↔ k ≤ 7
    omega
  rw [tokenStores, tokenize_eq_words]
  constructor
  · intro h
    by_contra hlong
    have hinside8 := h _ (TokenVector.mem_stores.2 ⟨8, not_le.1 hlong, rfl⟩)
    exact absurd ((hinside 8 (by decide)).1 hinside8) (by decide)
  · intro hshort store hstore
    obtain ⟨k, hk, rfl⟩ := TokenVector.mem_stores.1 hstore
    exact (hinside k (by omega)).2 (by omega)

/-- With eight words the `NULL` is stored behind the block. -/
theorem eight_words_leave_block : ¬ ∀ line, ∀ store ∈ tokenStores line, store.Inside := by
  intro h
  have hmem : (⟨8, 64⟩ : TokenStore) ∈ tokenStores (ascii "a b c d e f g h") := by decide
  exact absurd (h _ _ hmem) (by decide)

end SystemsProgramming.MiniShell
