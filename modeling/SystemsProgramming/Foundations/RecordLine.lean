import SystemsProgramming.Foundations.Chunks

/-!
# Lines that carry records

One direction of a connection as TLS has it: what is written is cut into records, and a read gets at most
one record, or the beginning of one that does not fit into the buffer. To a writer that goes on after a
write has failed nothing is promised. `Carries` compares what was written with what the reader has shown:
messages that fit into a record arrive as they were written, one at a time.
-/

namespace Foundations

/-- One direction of a connection, with records of at most `limit` elements. -/
structure RecordLine (α : Type) (limit : Nat) where
  /-- the records that the reader has not got, the first one perhaps in part -/
  unread : List (List α)
  /-- what the reader has got last, until it shows it -/
  buffer : Option (List α)
  /-- a write has failed -/
  failed : Bool
  fits : ∀ r ∈ unread, r.length ≤ limit

namespace RecordLine

variable {α : Type} {limit size : Nat} {d d' : RecordLine α limit} {m : List α} {ret : Int}
  {given shown : List (List α)}

/-- A new connection. -/
def empty : RecordLine α limit := ⟨[], none, false, fun _ h => by cases h⟩

/-- A write, with what it returns. -/
def write (d : RecordLine α limit) (m : List α) (ret : Int) : RecordLine α limit where
  unread := if 0 < ret then d.unread ++ chunks limit m else d.unread
  buffer := d.buffer
  failed := d.failed || decide (ret ≤ 0)
  fits r hr := by
    split at hr
    · rcases List.mem_append.1 hr with hr | hr
      · exact d.fits r hr
      · exact length_le_of_mem_chunksAux hr
    · exact d.fits r hr

/-- What is left of the records after a read into a buffer of this size. -/
def leftover (size : Nat) : List (List α) → List (List α)
  | [] => []
  | r :: rest => if size < r.length then r.drop size :: rest else rest

theorem length_le_of_mem_leftover {rs : List (List α)} (h : ∀ r ∈ rs, r.length ≤ limit) :
    ∀ r ∈ leftover size rs, r.length ≤ limit := by
  cases rs with
  | nil => exact h
  | cons r rest =>
    rw [List.forall_mem_cons] at h
    rw [leftover]
    split
    · refine List.forall_mem_cons.2 ⟨?_, h.2⟩
      rw [List.length_drop]
      exact Nat.le_trans (Nat.sub_le _ _) h.1
    · exact h.2

/-- A read into a buffer of this size, with what it returns. -/
def read (d : RecordLine α limit) (size : Nat) (ret : Int) : Option (RecordLine α limit) :=
  if ret ≤ 0 ∨ d.failed = true then some d
  else
    match d.unread.head? with
    | none => none
    | some r =>
      if (r.take size).length = ret then
        some {
          unread := leftover size d.unread
          buffer := some (r.take size)
          failed := d.failed
          fits := length_le_of_mem_leftover d.fits }
      else none

/-- The reader shows what is in the buffer. -/
def emit [DecidableEq α] (d : RecordLine α limit) (data : List α) : Option (RecordLine α limit) :=
  if d.failed = true then some d
  else if d.buffer = some data then some { d with buffer := none } else none

@[simp] theorem failed_write (d : RecordLine α limit) (m : List α) (ret : Int) :
    (d.write m ret).failed = (d.failed || decide (ret ≤ 0)) := rfl

@[simp] theorem buffer_write (d : RecordLine α limit) (m : List α) (ret : Int) :
    (d.write m ret).buffer = d.buffer := rfl

/-- A message that fits into a record is one. -/
theorem unread_write (hret : 0 < ret) (hm : m ≠ []) (hfits : m.length ≤ limit) :
    (d.write m ret).unread = d.unread ++ [m] := by
  have hpos : 0 < limit := Nat.lt_of_lt_of_le (List.length_pos_iff.2 hm) hfits
  have hone : chunks limit m = [m] := by
    rw [chunks_of_ne_nil hpos hm, List.take_of_length_le hfits, List.drop_of_length_le hfits, chunks_nil]
  show (if 0 < ret then d.unread ++ chunks limit m else d.unread) = _
  rw [if_pos hret, hone]

/-- A buffer with room for every record gets the next one whole, or nothing was read. -/
theorem read_eq_some (hsize : limit ≤ size) (h : d.read size ret = some d') : d'.failed = d.failed ∧
    (d.failed = false → (ret ≤ 0 ∧ d' = d) ∨
      (0 < ret ∧ ∃ r, d.unread = r :: d'.unread ∧ d'.buffer = some r)) := by
  unfold read at h
  split_ifs at h with hnone
  · obtain rfl := Option.some.inj h
    refine ⟨rfl, fun hfailed => Or.inl ⟨hnone.resolve_right ?_, rfl⟩⟩
    simp [hfailed]
  · rw [not_or, Int.not_le] at hnone
    cases hunread : d.unread with
    | nil => simp [hunread] at h
    | cons r rest =>
      have hr : r.length ≤ size :=
        Nat.le_trans (d.fits r (hunread ▸ List.mem_cons_self)) hsize
      simp only [hunread, List.head?_cons, leftover, if_neg (Nat.not_lt.2 hr),
        List.take_of_length_le hr] at h
      split_ifs at h
      cases h
      exact ⟨rfl, fun _ => Or.inr ⟨hnone.1, r, rfl, rfl⟩⟩

theorem emit_eq_some [DecidableEq α] (h : d.emit m = some d') : d'.failed = d.failed ∧
    (d.failed = false → d.buffer = some m ∧ d'.buffer = none ∧ d'.unread = d.unread) := by
  unfold emit at h
  split_ifs at h with hfailed hbuffer <;> cases h
  · refine ⟨rfl, fun hno => ?_⟩
    rw [hfailed] at hno
    cases hno
  · exact ⟨rfl, fun _ => ⟨hbuffer, rfl, rfl⟩⟩

/-! ## What the messages become -/

/-- As long as no write has failed, the reader has shown the messages that were given to the line, up to
the one in its buffer and those it has not read. -/
def Carries (d : RecordLine α limit) (given shown : List (List α)) : Prop :=
  d.failed = false → given = shown ++ d.buffer.toList ++ d.unread

theorem carries_empty : (empty : RecordLine α limit).Carries [] [] := fun _ => rfl

theorem Carries.write (h : d.Carries given shown) (hm : m ≠ []) (hfits : m.length ≤ limit) :
    (d.write m ret).Carries (given ++ [m]) shown := by
  intro hfailed
  rw [failed_write, Bool.or_eq_false_iff, decide_eq_false_iff_not, Int.not_le] at hfailed
  rw [unread_write hfailed.2 hm hfits, buffer_write, ← List.append_assoc, ← h hfailed.1]

theorem Carries.read (h : d.Carries given shown) (hbuffer : d.failed = false → d.buffer = none)
    (hsize : limit ≤ size) (hread : d.read size ret = some d') : d'.Carries given shown := by
  obtain ⟨hsame, hcases⟩ := read_eq_some hsize hread
  intro hfailed
  rw [hsame] at hfailed
  have hgiven := h hfailed
  rcases hcases hfailed with ⟨-, rfl⟩ | ⟨-, r, hunread, hbuffer'⟩
  · exact hgiven
  · rw [hgiven, hbuffer hfailed, hunread, hbuffer']
    simp

theorem Carries.emit [DecidableEq α] (h : d.Carries given shown) (hemit : d.emit m = some d') :
    d'.Carries given (shown ++ [m]) := by
  obtain ⟨hsame, hcases⟩ := emit_eq_some hemit
  intro hfailed
  rw [hsame] at hfailed
  obtain ⟨hbuffer, hbuffer', hunread⟩ := hcases hfailed
  rw [h hfailed, hbuffer, hbuffer', hunread]
  simp

theorem Carries.shown_prefix (h : d.Carries given shown) (hfailed : d.failed = false) : shown <+: given := by
  rw [h hfailed, List.append_assoc]
  exact List.prefix_append _ _

/-- Once nothing is under way, the reader has shown everything. -/
theorem Carries.shown_eq (h : d.Carries given shown) (hfailed : d.failed = false)
    (hbuffer : d.buffer = none) (hunread : d.unread = []) : shown = given := by
  rw [h hfailed, hbuffer, hunread]
  simp

end RecordLine

end Foundations
