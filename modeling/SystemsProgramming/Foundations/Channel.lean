import Mathlib.Data.List.Basic

/-!
# Byte streams between two parties

A channel is one direction of a connection: what the transport has taken from the writer, and what the
reader has got of it. A write may be taken in part only, or not at all, and the next one goes on behind
what was taken. `Carries` compares the channel with what the writer meant to send.
-/

namespace Foundations

/-- One direction of a connection. The reader gets what was written, from the beginning and in order;
`cut` says that some write was not taken as a whole. -/
structure Channel (α : Type) where
  written : List α
  got : List α
  cut : Bool
  ordered : got <+: written

namespace Channel

variable {α : Type} {c c' : Channel α} {xs data : List α}

/-- A new connection. -/
def empty : Channel α := ⟨[], [], false, List.nil_prefix⟩

/-- What is under way. -/
def unread (c : Channel α) : List α := c.written.drop c.got.length

theorem got_append_unread (c : Channel α) : c.got ++ c.unread = c.written := by
  obtain ⟨rest, hrest⟩ := c.ordered
  rw [unread, ← hrest, List.drop_left]

/-- A write of which so many are taken. -/
def write (c : Channel α) (data : List α) (taken : Nat) : Channel α where
  written := c.written ++ data.take taken
  got := c.got
  cut := c.cut || decide (taken < data.length)
  ordered := c.ordered.trans (List.prefix_append _ _)

/-- A read that returns `data`, where that is what comes next. -/
def read [DecidableEq α] (c : Channel α) (data : List α) : Option (Channel α) :=
  if h : data <+: c.unread then
    some {
      written := c.written
      got := c.got ++ data
      cut := c.cut
      ordered := by
        rw [← c.got_append_unread]
        exact (List.prefix_append_right_inj _).2 h }
  else none

theorem read_eq_some [DecidableEq α] (h : c.read data = some c') :
    c'.written = c.written ∧ c'.cut = c.cut ∧ c'.got = c.got ++ data := by
  unfold read at h
  split_ifs at h
  cases h
  exact ⟨rfl, rfl, rfl⟩

@[simp] theorem got_write (c : Channel α) (data : List α) (taken : Nat) :
    (c.write data taken).got = c.got := rfl

/-- What has been taken is what the writer meant to send, in order and with gaps where a write was cut
short, and all of it if none was. -/
structure Carries (c : Channel α) (xs : List α) : Prop where
  sublist : c.written.Sublist xs
  whole : c.cut = false → c.written = xs

theorem carries_empty : (empty : Channel α).Carries [] := ⟨List.Sublist.refl _, fun _ => rfl⟩

theorem Carries.write (h : c.Carries xs) (data : List α) (taken : Nat) :
    (c.write data taken).Carries (xs ++ data) := by
  refine ⟨h.sublist.append (List.take_sublist taken data), fun hcut => ?_⟩
  obtain ⟨hc, htaken⟩ : c.cut = false ∧ data.length ≤ taken := by simpa [Channel.write] using hcut
  show c.written ++ data.take taken = xs ++ data
  rw [h.whole hc, List.take_of_length_le htaken]

theorem Carries.read [DecidableEq α] (h : c.Carries xs) (hr : c.read data = some c') :
    c'.Carries xs := by
  obtain ⟨hw, hb, -⟩ := read_eq_some hr
  exact ⟨hw ▸ h.sublist, fun hwhole => hw.trans (h.whole (hb.symm.trans hwhole))⟩

theorem Carries.got_sublist (h : c.Carries xs) : c.got.Sublist xs := c.ordered.sublist.trans h.sublist

theorem Carries.got_prefix (h : c.Carries xs) (hwhole : c.cut = false) : c.got <+: xs := by
  rw [← h.whole hwhole]
  exact c.ordered

/-- Once nothing is under way on a connection where no write was cut short, the reader has got all. -/
theorem Carries.got_eq (h : c.Carries xs) (hwhole : c.cut = false) (hunread : c.unread = []) :
    c.got = xs := by
  rw [← h.whole hwhole, ← c.got_append_unread, hunread, List.append_nil]

end Channel

end Foundations
