import Mathlib.Data.List.Basic

/-!
# Buffered input

An input stream reads ahead: it takes a block from its descriptor and hands it out byte by byte. The offset
of the descriptor belongs to all processes that have it, so that others can move it. A process that ends
with `exit` sets it back over what its own copy of the stream has not handed out.
-/

namespace Foundations

/-- An input stream with its descriptor, and the file behind that. -/
structure InputStream where
  content : List UInt8
  /-- the offset can be set -/
  seekable : Bool
  /-- how much a `read` at an offset returns, if there is as much -/
  block : Nat → Nat
  block_pos : ∀ offset, 0 < block offset
  offset : Nat
  /-- what has been read and not handed out -/
  unread : List UInt8
  /-- the end of the file has been seen -/
  eof : Bool

namespace InputStream

variable (s : InputStream) {n : Nat}

/-- What the stream hands out from here on, as long as nobody moves the offset. -/
def text : List UInt8 := s.unread ++ if s.eof then [] else s.content.drop s.offset

/-- The stream reads a block. -/
def fill : InputStream :=
  let data := (s.content.drop s.offset).take (s.block s.offset)
  { s with offset := s.offset + data.length, unread := data, eof := data.isEmpty }

/-- `getchar`: it reads when there is nothing unread, until it has seen the end of the file. -/
def getchar : Option UInt8 × InputStream :=
  let s := if s.unread = [] ∧ s.eof = false then s.fill else s
  (s.unread.head?, { s with unread := s.unread.tail })

/-- The stream after so many calls of `getchar`. -/
def skip : InputStream → Nat → InputStream
  | s, 0 => s
  | s, n + 1 => s.getchar.2.skip n

/-- Somebody else moves the offset. -/
def seek (offset : Nat) : InputStream := { s with offset := offset }

/-- A process with a copy of the stream calls `exit`. It cannot set the offset back behind the beginning of
the file. -/
def exitCopy : InputStream :=
  if s.seekable ∧ s.unread.length ≤ s.offset then s.seek (s.offset - s.unread.length) else s

/-- A file that has been opened, and is read in blocks of this size. -/
def opened (content : List UInt8) (size : Nat) (h : 0 < size) : InputStream where
  content := content
  seekable := true
  block _ := size
  block_pos _ := h
  offset := 0
  unread := []
  eof := false

@[simp] theorem text_opened (content : List UInt8) (size : Nat) (h : 0 < size) :
    (opened content size h).text = content := rfl

@[simp] theorem unread_seek (offset : Nat) : (s.seek offset).unread = s.unread := rfl

@[simp] theorem unread_exitCopy : s.exitCopy.unread = s.unread := by
  unfold exitCopy
  split <;> rfl

/-- Nothing moves if nothing is unread, or the offset cannot be set. -/
theorem exitCopy_eq_self_iff :
    s.exitCopy = s ↔ (s.seekable = true → s.unread.length ≤ s.offset → s.unread = []) := by
  unfold exitCopy
  constructor
  · intro h hseekable hle
    rw [if_pos ⟨hseekable, hle⟩] at h
    have hoffset : s.offset - s.unread.length = s.offset := congrArg offset h
    by_contra hne
    have hpos := List.length_pos_iff.2 hne
    omega
  · intro h
    split
    · rename_i hmoves
      rw [h hmoves.1 hmoves.2]
      rfl
    · rfl

/-! ## The bytes that are handed out -/

theorem block_ne_zero : s.block s.offset ≠ 0 := Nat.pos_iff_ne_zero.1 (s.block_pos s.offset)

/-- What a block has, the file had behind the offset. -/
theorem text_fill (hunread : s.unread = []) (heof : s.eof = false) : s.fill.text = s.text := by
  rw [text, text, hunread, heof, fill]
  generalize hrest : s.content.drop s.offset = rest
  have hdrop (k : Nat) : s.content.drop (s.offset + k) = rest.drop k := by
    rw [← hrest, List.drop_drop]
  simp only [hdrop, List.isEmpty_iff, Bool.false_eq_true, if_false, List.nil_append]
  split
  · rename_i hempty
    rw [hempty, (List.take_eq_nil_iff.1 hempty).resolve_left s.block_ne_zero]
    rfl
  · have hblock : rest.drop (rest.take (s.block s.offset)).length = rest.drop (s.block s.offset) := by
      calc rest.drop (rest.take (s.block s.offset)).length
          = (rest.take (s.block s.offset) ++ rest.drop (s.block s.offset)).drop
              (rest.take (s.block s.offset)).length := by rw [List.take_append_drop]
        _ = rest.drop (s.block s.offset) := List.drop_left
    rw [hblock, List.take_append_drop]

/-- Where nothing is unread after an attempt to read, there is nothing more. -/
theorem text_eq_nil_of_fill (hunread : s.unread = []) (heof : s.eof = false)
    (h : s.fill.unread = []) : s.text = [] := by
  have hdata : (s.content.drop s.offset).take (s.block s.offset) = [] := h
  rw [text, hunread, heof]
  exact (List.take_eq_nil_iff.1 hdata).resolve_left s.block_ne_zero

/-- Handing out the first byte that is unread, if the text has no others. -/
theorem text_tail (h : s.unread = [] → s.text = []) :
    s.unread.head? = s.text.head? ∧
      ({ s with unread := s.unread.tail } : InputStream).text = s.text.tail := by
  cases hunread : s.unread with
  | nil =>
    have htext := h hunread
    rw [htext]
    rw [text, hunread] at htext
    exact ⟨rfl, htext⟩
  | cons c unread =>
    rw [text, text, hunread]
    exact ⟨rfl, rfl⟩

theorem getchar_eq : s.getchar.1 = s.text.head? ∧ s.getchar.2.text = s.text.tail := by
  unfold getchar
  by_cases h : s.unread = [] ∧ s.eof = false
  · -- a block is read
    rw [if_pos h, ← s.text_fill h.1 h.2]
    refine s.fill.text_tail fun hempty => ?_
    rw [s.text_fill h.1 h.2]
    exact s.text_eq_nil_of_fill h.1 h.2 hempty
  · rw [if_neg h]
    refine s.text_tail fun hunread => ?_
    have heof : s.eof = true := by simpa [hunread] using h
    rw [text, hunread, heof]
    rfl

/-- The call number `i` of `getchar` hands out the byte `i`. -/
theorem getchar_skip (i : Nat) : (s.skip i).getchar.1 = s.text[i]? := by
  induction i generalizing s with
  | zero => rw [skip, (getchar_eq s).1, List.head?_eq_getElem?]
  | succ i ih => rw [skip, ih, (getchar_eq s).2, List.getElem?_tail]

theorem text_skip (n : Nat) : (s.skip n).text = s.text.drop n := by
  induction n generalizing s with
  | zero => rfl
  | succ n ih => rw [skip, ih, (getchar_eq s).2, List.drop_tail]

/-- While there is something unread, nothing is read. -/
theorem skip_of_le {n : Nat} (h : n ≤ s.unread.length) :
    s.skip n = { s with unread := s.unread.drop n } := by
  induction n generalizing s with
  | zero => rfl
  | succ n ih =>
    have hne : s.unread ≠ [] := List.ne_nil_of_length_pos (by omega)
    have hchar : s.getchar.2 = { s with unread := s.unread.tail } := by
      simp [getchar, hne]
    rw [skip, hchar, ih _ (by rw [List.length_tail]; omega), List.drop_tail]

/-- Then a block is. -/
theorem skip_fill {n : Nat} (hn : 0 < n) (hunread : s.unread = []) (heof : s.eof = false)
    (hfill : s.fill.unread ≠ []) : s.skip n = s.fill.skip n := by
  have hchar : s.getchar = s.fill.getchar := by
    unfold getchar
    rw [if_pos ⟨hunread, heof⟩, if_neg fun h => hfill h.1]
  obtain ⟨m, rfl⟩ := Nat.exists_eq_add_of_le' hn
  rw [skip, skip, hchar]

end InputStream

end Foundations
