/-!
# Formats that are a sequence of records

A reader takes one record off the beginning of the bytes. Reading until nothing is left gives back the
records that were written one after another, for every reader that gives back one record and takes no
more bytes than that.
-/

namespace Foundations

variable {α : Type}

/-- Read records until nothing is left; the first argument bounds their number. -/
def readAll (reader : List UInt8 → Option (α × List UInt8)) : Nat → List UInt8 → Option (List α)
  | _, [] => some []
  | 0, _ :: _ => none
  | fuel + 1, b :: bs => do
    let (r, rest) ← reader (b :: bs)
    let rs ← readAll reader fuel rest
    return r :: rs

/-- Read a file that has nothing but records. Every record takes at least one byte. -/
def readRecords (reader : List UInt8 → Option (α × List UInt8)) (bs : List UInt8) :
    Option (List α) :=
  readAll reader bs.length bs

theorem readAll_flatMap {reader : List UInt8 → Option (α × List UInt8)} {writer : α → List UInt8}
    {rs : List α} (hread : ∀ r ∈ rs, ∀ rest, reader (writer r ++ rest) = some (r, rest))
    (hne : ∀ r ∈ rs, writer r ≠ []) {fuel : Nat} (hfuel : (rs.flatMap writer).length ≤ fuel) :
    readAll reader fuel (rs.flatMap writer) = some rs := by
  induction rs generalizing fuel with
  | nil => cases fuel <;> rfl
  | cons r rs ih =>
    rw [List.flatMap_cons] at hfuel ⊢
    obtain ⟨b, bs, hb⟩ := List.exists_cons_of_ne_nil (hne r List.mem_cons_self)
    have hread' := hread r List.mem_cons_self (rs.flatMap writer)
    rw [hb, List.length_append, List.length_cons] at hfuel
    rw [hb, List.cons_append] at hread' ⊢
    cases fuel with
    | zero => omega
    | succ fuel =>
      have hrest := ih (fun q hq => hread q (List.mem_cons_of_mem _ hq))
        (fun q hq => hne q (List.mem_cons_of_mem _ hq))
        (show (rs.flatMap writer).length ≤ fuel by omega)
      simp [readAll, hread', hrest]

/-- Records that were written one after another are read back. -/
theorem readRecords_flatMap {reader : List UInt8 → Option (α × List UInt8)}
    {writer : α → List UInt8} {rs : List α}
    (hread : ∀ r ∈ rs, ∀ rest, reader (writer r ++ rest) = some (r, rest))
    (hne : ∀ r ∈ rs, writer r ≠ []) : readRecords reader (rs.flatMap writer) = some rs :=
  readAll_flatMap hread hne (Nat.le_refl _)

/-- Texts that were written from some values, each read back by itself. -/
theorem mapM_map_of_some {α β γ : Type} {f : β → Option γ} {g : α → β} {k : α → γ} {xs : List α}
    (h : ∀ x ∈ xs, f (g x) = some (k x)) : (xs.map g).mapM f = some (xs.map k) := by
  induction xs with
  | nil => rfl
  | cons x xs ih =>
    rw [List.map_cons, List.mapM_cons, h x List.mem_cons_self,
      ih fun y hy => h y (List.mem_cons_of_mem _ hy)]
    rfl

end Foundations
