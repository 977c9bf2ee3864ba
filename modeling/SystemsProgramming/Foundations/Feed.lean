import Mathlib.Data.List.Basic
import Mathlib.Logic.Function.Basic

/-!
# Feeds

A feed is a log of messages with a cursor for every reader that follows it. A reader that joins starts
at the end of the log, and a message is delivered to it only if it is the next one: so a reader misses
nothing that was published after it joined, and gets nothing twice. A message that is announced takes the
place of those that have not been delivered.
-/

namespace Foundations

/-- A log, and how far each reader has come in it. -/
structure Feed (ρ μ : Type) where
  log : List μ
  cursor : ρ → Option Nat
  bounded : ∀ r k, cursor r = some k → k ≤ log.length

namespace Feed

variable {ρ μ : Type} [DecidableEq ρ] {f f' : Feed ρ μ} {r : ρ} {m : μ}

/-- Nothing was published, and nobody follows. -/
def empty : Feed ρ μ := ⟨[], fun _ => none, fun _ _ h => by cases h⟩

/-- Publish a message. -/
def publish (f : Feed ρ μ) (m : μ) : Feed ρ μ where
  log := f.log ++ [m]
  cursor := f.cursor
  bounded r k h := by
    rw [List.length_append]
    exact Nat.le_add_right_of_le (f.bounded r k h)

/-- Publish a message and drop what the readers have not got by then. -/
def announce (f : Feed ρ μ) (m : μ) : Feed ρ μ where
  log := f.log ++ [m]
  cursor r := (f.cursor r).map fun _ => f.log.length
  bounded r k h := by
    obtain ⟨_, -, rfl⟩ := Option.map_eq_some_iff.1 h
    rw [List.length_append]
    exact Nat.le_add_right _ _

/-- A reader joins at the end of the log. -/
def join (f : Feed ρ μ) (r : ρ) : Feed ρ μ where
  log := f.log
  cursor := Function.update f.cursor r (some f.log.length)
  bounded q k h := by
    by_cases hq : q = r
    · subst hq
      rw [Function.update_self, Option.some.injEq] at h
      exact h ▸ Nat.le_refl _
    · rw [Function.update_of_ne hq] at h
      exact f.bounded q k h

/-- A reader leaves. -/
def leave (f : Feed ρ μ) (r : ρ) : Feed ρ μ where
  log := f.log
  cursor := Function.update f.cursor r none
  bounded q k h := by
    by_cases hq : q = r
    · subst hq
      rw [Function.update_self] at h
      cases h
    · rw [Function.update_of_ne hq] at h
      exact f.bounded q k h

omit [DecidableEq ρ] in
/-- The message that a reader gets next. -/
def next (f : Feed ρ μ) (r : ρ) : Option μ := (f.cursor r).bind fun k => f.log[k]?

/-- Deliver a message to a reader, if it is the next one. -/
def deliver [DecidableEq μ] (f : Feed ρ μ) (r : ρ) (m : μ) : Option (Feed ρ μ) :=
  if h : f.next r = some m then
    some {
      log := f.log
      cursor := Function.update f.cursor r ((f.cursor r).map (· + 1))
      bounded := fun q k hq => by
        by_cases hqr : q = r
        · subst hqr
          obtain ⟨j, hj, hm⟩ := Option.bind_eq_some_iff.1 h
          rw [Function.update_self, hj, Option.map_some, Option.some.injEq] at hq
          exact hq ▸ (List.getElem?_eq_some_iff.1 hm).1
        · rw [Function.update_of_ne hqr] at hq
          exact f.bounded q k hq }
  else none

theorem deliver_eq_some [DecidableEq μ] (h : f.deliver r m = some f') :
    f'.log = f.log ∧ ∃ k, f.cursor r = some k ∧ f.log.drop k = m :: f.log.drop (k + 1) ∧
      f'.cursor = Function.update f.cursor r (some (k + 1)) := by
  unfold deliver at h
  split_ifs at h with hm
  cases h
  obtain ⟨k, hk, hget⟩ := Option.bind_eq_some_iff.1 hm
  obtain ⟨hlt, rfl⟩ := List.getElem?_eq_some_iff.1 hget
  refine ⟨rfl, k, hk, List.drop_eq_getElem_cons hlt, ?_⟩
  show Function.update f.cursor r ((f.cursor r).map (· + 1)) = _
  rw [hk, Option.map_some]

theorem deliver_of_next [DecidableEq μ] (h : f.next r = some m) :
    ∃ f', f.deliver r m = some f' ∧ f'.log = f.log ∧
      f'.cursor = Function.update f.cursor r ((f.cursor r).map (· + 1)) :=
  ⟨_, dif_pos h, rfl, rfl⟩

/-! ## Readers that are up to date -/

omit [DecidableEq ρ] in
/-- The reader has got everything. -/
def CaughtUp (f : Feed ρ μ) (r : ρ) : Prop := f.cursor r = some f.log.length

theorem caughtUp_join (f : Feed ρ μ) (r : ρ) : (f.join r).CaughtUp r := Function.update_self ..

theorem CaughtUp.join (h : f.CaughtUp r) (q : ρ) : (f.join q).CaughtUp r := by
  by_cases hrq : r = q
  · exact hrq ▸ caughtUp_join f r
  · exact (Function.update_of_ne hrq _ _).trans h

omit [DecidableEq ρ] in
theorem CaughtUp.next_publish (h : f.CaughtUp r) (m : μ) : (f.publish m).next r = some m := by
  have hcursor : (f.publish m).cursor r = some f.log.length := h
  rw [next, hcursor, Option.bind_some]
  exact List.getElem?_concat_length

omit [DecidableEq ρ] in
/-- What is announced is the next message for everyone who follows. -/
theorem next_announce (h : f.cursor r ≠ none) (m : μ) : (f.announce m).next r = some m := by
  obtain ⟨k, hk⟩ := Option.ne_none_iff_exists'.1 h
  have hcursor : (f.announce m).cursor r = some f.log.length := by
    show (f.cursor r).map _ = _
    rw [hk, Option.map_some]
  rw [next, hcursor, Option.bind_some]
  exact List.getElem?_concat_length

/-- A message that is the next one for every one of these readers is delivered to all of them. -/
theorem deliver_each [DecidableEq μ] {rs : List ρ} (hnodup : rs.Nodup)
    (h : ∀ r ∈ rs, f.next r = some m) :
    ∃ f', rs.foldlM (fun f r => f.deliver r m) f = some f' ∧ f'.log = f.log ∧
      ∀ r, f'.cursor r = if r ∈ rs then (f.cursor r).map (· + 1) else f.cursor r := by
  induction rs generalizing f with
  | nil => exact ⟨f, rfl, rfl, fun r => by simp⟩
  | cons q rs ih =>
    obtain ⟨hq, hnodup'⟩ := List.nodup_cons.1 hnodup
    obtain ⟨f1, h1, hlog, hcursor⟩ := deliver_of_next (h q List.mem_cons_self)
    have hnext : ∀ r ∈ rs, f1.next r = some m := by
      intro r hr
      have hrq : r ≠ q := fun heq => hq (heq ▸ hr)
      rw [next, hlog, hcursor, Function.update_of_ne hrq]
      exact h r (List.mem_cons_of_mem _ hr)
    obtain ⟨f2, h2, hlog2, hcursor2⟩ := ih hnodup' hnext
    refine ⟨f2, ?_, hlog2.trans hlog, fun r => ?_⟩
    · rw [List.foldlM_cons, h1]
      exact h2
    · rw [hcursor2, hcursor]
      by_cases hrq : r = q
      · subst hrq
        simp [hq]
      · simp [hrq]

/-- Publish a message and deliver it to all these readers, and they are up to date again. -/
theorem publish_deliver_each [DecidableEq μ] {rs : List ρ} (hnodup : rs.Nodup)
    (h : ∀ r ∈ rs, f.CaughtUp r) (m : μ) :
    ∃ f', rs.foldlM (fun f r => f.deliver r m) (f.publish m) = some f' ∧
      f'.log = f.log ++ [m] ∧ ∀ r ∈ rs, f'.CaughtUp r := by
  obtain ⟨f', h1, hlog, hcursor⟩ := deliver_each (f := f.publish m) hnodup
    fun r hr => (h r hr).next_publish m
  refine ⟨f', h1, hlog, fun r hr => ?_⟩
  have hold : (f.publish m).cursor r = some f.log.length := h r hr
  have hlen : (f.publish m).log.length = f.log.length + 1 := List.length_append
  rw [CaughtUp, hcursor, if_pos hr, hold, hlog, hlen]
  rfl

end Feed

end Foundations
