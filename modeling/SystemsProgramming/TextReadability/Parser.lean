import SystemsProgramming.Foundations.CString
import Mathlib.Algebra.Group.Nat.Defs

/-!
# The readability tool (`text-readability/main.c`)

`parser`, which counts letters, words and sentences. The counters are `float`s that only ever hold whole
numbers. The character classes are those of the C locale.
-/

namespace SystemsProgramming.TextReadability

open Foundations

/-- `OUT_WORD` -/
def outWord : Int32 := 0

/-- `IN_WORD` -/
def inWord : Int32 := 1

/-- `state`, and what the three pointers point to. -/
structure Vars where
  state : Int32
  letters : Nat
  words : Nat
  sentences : Nat
  deriving DecidableEq

/-- `x++` for a `float` that holds a whole number: from `2 ^ 24` on the next number is no `float`, and the
sum is rounded back. -/
def increment (x : Nat) : Nat := if x < 2 ^ 24 then x + 1 else x

/-- `isalpha` -/
def isAlpha (c : UInt8) : Bool := (65 ≤ c && c ≤ 90) || (97 ≤ c && c ≤ 122)

/-- `isblank` -/
def isBlank (c : UInt8) : Bool := c = 32 || c = 9

/-- The part of a round that counts letters. -/
def countLetter (c : UInt8) (v : Vars) : Vars :=
  if isAlpha c then { v with letters := increment v.letters } else v

/-- The part of a round that counts words. -/
def countWord (c : UInt8) (v : Vars) : Vars :=
  if isBlank c ∨ c = 10 then { v with state := outWord }
  else if v.state = outWord then { v with words := increment v.words, state := inWord }
  else v

/-- The part of a round that counts sentences, with the character before if there is one. -/
def countSentence (previous : Option UInt8) (c : UInt8) (v : Vars) : Vars :=
  match previous with
  | none => v
  | some p =>
    if (p ≠ 33 ∧ c = 33) ∨ (p ≠ 63 ∧ c = 63) ∨ (p ≠ 46 ∧ c = 46) then
      { v with sentences := increment v.sentences }
    else v

/-- The loop of `parser`, from a character on. -/
def parserLoop : Option UInt8 → List UInt8 → Vars → Vars
  | _, [], v => v
  | previous, c :: buffer, v =>
    parserLoop (some c) buffer (countSentence previous c (countWord c (countLetter c v)))

/-- `parser` -/
def parser (buffer : List UInt8) (v : Vars) : Vars := parserLoop none buffer v

/-- The variables when `main` has called `parser`. -/
def initial (state : Int32) : Vars where
  state := state
  letters := 0
  words := 1
  sentences := 0

end SystemsProgramming.TextReadability
