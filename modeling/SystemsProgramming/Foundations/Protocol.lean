import SystemsProgramming.Foundations.Prog
import Mathlib.Logic.Function.Basic

/-!
# Protocols for calls, and resource ledgers

A protocol is a partial function `next : W → κ → Option W`: in the world `w` the call `c` either is
allowed, and leads to a new world, or it is not. A list of calls obeys the protocol when `replay`
does not get stuck on it. A `Triple` is a Hoare triple for a `Prog` with respect to a protocol: from
the precondition, every call the program makes is allowed, and the postcondition holds of the
variables and of the world afterwards.

A `Ledger` is the world of one kind of resource: which resources are held, each with the status it
is in. A resource can be acquired only when it is not held and released only when it is, so a
replayed trace never releases anything twice.
-/

namespace Foundations

variable {σ κ W α β ι : Type}

/-! ## Replaying calls -/

/-- Replay calls against a protocol. -/
def replay (next : W → κ → Option W) (w : W) (cs : List κ) : Option W := cs.foldlM next w

variable {next : W → κ → Option W}

@[simp] theorem replay_nil (w : W) : replay next w [] = some w := rfl

@[simp] theorem replay_cons (w : W) (c : κ) (cs : List κ) :
    replay next w (c :: cs) = (next w c).bind fun w' => replay next w' cs := rfl

theorem replay_append (w : W) (cs ds : List κ) :
    replay next w (cs ++ ds) = (replay next w cs).bind fun w' => replay next w' ds :=
  List.foldlM_append ..

theorem replay_append_some {w w' : W} {cs : List κ} (h : replay next w cs = some w')
    (ds : List κ) : replay next w (cs ++ ds) = replay next w' ds := by
  rw [replay_append, h, Option.bind_some]

/-- Calls that leave the world as it is. -/
theorem replay_same {w : W} {cs : List κ} (h : ∀ c ∈ cs, next w c = some w) :
    replay next w cs = some w := by
  induction cs with
  | nil => rfl
  | cons c cs ih =>
    rw [replay_cons, h c List.mem_cons_self, Option.bind_some]
    exact ih fun d hd => h d (List.mem_cons_of_mem _ hd)

/-- Pieces of which each keeps a property of the world. -/
theorem replay_flatMap {P : W → Prop} {is : List ι} {f : ι → List κ}
    (h : ∀ i ∈ is, ∀ w, P w → ∃ w', replay next w (f i) = some w' ∧ P w') {w : W} (hw : P w) :
    ∃ w', replay next w (is.flatMap f) = some w' ∧ P w' := by
  induction is generalizing w with
  | nil => exact ⟨w, rfl, hw⟩
  | cons i is ih =>
    obtain ⟨w1, h1, hw1⟩ := h i List.mem_cons_self w hw
    obtain ⟨w2, h2, hw2⟩ := ih (fun j hj => h j (List.mem_cons_of_mem _ hj)) hw1
    exact ⟨w2, by rw [List.flatMap_cons, replay_append_some h1, h2], hw2⟩

/-! ## Hoare triples -/

/-- From `P`, the program makes only allowed calls and ends in `Q`. -/
def Triple (next : W → κ → Option W) (P : σ → W → Prop) (p : Prog σ κ α)
    (Q : α → σ → W → Prop) : Prop :=
  ∀ s w, P s w → ∃ w', replay next w (p.calls s) = some w' ∧ Q (p.value s) (p.final s) w'

namespace Triple

variable {P P' : σ → W → Prop} {Q Q' : α → σ → W → Prop}

theorem pure {a : α} (h : ∀ s w, P s w → Q a s w) :
    Triple next P (Pure.pure a : Prog σ κ α) Q :=
  fun s w hP => ⟨w, rfl, h s w hP⟩

theorem bind {R : β → σ → W → Prop} {p : Prog σ κ α} {f : α → Prog σ κ β}
    (hp : Triple next P p Q) (hf : ∀ a, Triple next (Q a) (f a) R) :
    Triple next P (p >>= f) R := by
  intro s w h
  obtain ⟨w1, h1, hQ⟩ := hp s w h
  obtain ⟨w2, h2, hR⟩ := hf _ _ w1 hQ
  exact ⟨w2, by rw [Prog.calls_bind, replay_append_some h1, h2], hR⟩

/-- Read the variables and go on. -/
theorem get {R : β → σ → W → Prop} {f : σ → Prog σ κ β}
    (hf : ∀ u, Triple next (fun s w => P s w ∧ s = u) (f u) R) :
    Triple next P (Prog.get >>= f) R := by
  intro s w h
  obtain ⟨w', hr, hR⟩ := hf s s w ⟨h, rfl⟩
  exact ⟨w', by rw [Prog.calls_get_bind, hr], hR⟩

theorem modify {f : σ → σ} {R : Unit → σ → W → Prop} (h : ∀ s w, P s w → R () (f s) w) :
    Triple next P (Prog.modify f : Prog σ κ Unit) R :=
  fun s w hP => ⟨w, rfl, h s w hP⟩

/-- A call, when it is allowed. -/
theorem call {c : κ} {R : Unit → σ → W → Prop}
    (h : ∀ s w, P s w → ∃ w', next w c = some w' ∧ R () s w') :
    Triple next P (Prog.call c : Prog σ κ Unit) R := by
  intro s w hP
  obtain ⟨w', hn, hR⟩ := h s w hP
  exact ⟨w', by simp [hn], hR⟩

theorem conseq {p : Prog σ κ α} (h : Triple next P p Q) (hP : ∀ s w, P' s w → P s w)
    (hQ : ∀ a s w, Q a s w → Q' a s w) : Triple next P' p Q' := by
  intro s w hs
  obtain ⟨w', hr, hq⟩ := h s w (hP s w hs)
  exact ⟨w', hr, hQ _ _ _ hq⟩

theorem pre {p : Prog σ κ α} (h : Triple next P p Q) (hP : ∀ s w, P' s w → P s w) :
    Triple next P' p Q :=
  h.conseq hP fun _ _ _ => id

theorem post {p : Prog σ κ α} (h : Triple next P p Q) (hQ : ∀ a s w, Q a s w → Q' a s w) :
    Triple next P p Q' :=
  h.conseq (fun _ _ => id) hQ

theorem ite {c : Prop} [Decidable c] {p q : Prog σ κ α}
    (hp : c → Triple next P p Q) (hq : ¬ c → Triple next P q Q) :
    Triple next P (if c then p else q) Q := by
  split
  · exact hp ‹_›
  · exact hq ‹_›

/-- The rule of `forEach`: every round keeps the invariant. -/
theorem forEach {I : σ → W → Prop} {body : ι → Prog σ κ Unit} {is : List ι}
    (h : ∀ i ∈ is, Triple next I (body i) fun _ => I) :
    Triple next I (Prog.forEach body is) fun _ => I := by
  induction is with
  | nil => exact pure fun _ _ => id
  | cons i is ih =>
    exact bind (h i List.mem_cons_self) fun _ => ih fun j hj => h j (List.mem_cons_of_mem _ hj)

/-- The rule of the loop that may return: a round that does not return keeps the invariant. -/
theorem untilReturn {I : σ → W → Prop} {R : α → σ → W → Prop} {body : ι → Prog σ κ (Option α)}
    {is : List ι}
    (h : ∀ i ∈ is, Triple next I (body i) fun r s w => r.elim (I s w) fun a => R a s w) :
    Triple next I (Prog.untilReturn body is) fun r s w => r.elim (I s w) fun a => R a s w := by
  induction is with
  | nil => exact pure fun _ _ => id
  | cons i is ih =>
    refine bind (h i List.mem_cons_self) fun r => ?_
    cases r with
    | none => exact ih fun j hj => h j (List.mem_cons_of_mem _ hj)
    | some a => exact pure fun _ _ => id

/-- The rule of the counting loop: a round that is entered keeps the invariant. -/
theorem forBelow {I : σ → W → Prop} {bound : σ → Nat} {body : Nat → Prog σ κ Unit} {lo : Nat}
    (h : ∀ i, lo ≤ i → Triple next (fun s w => I s w ∧ i < bound s) (body i) fun _ => I)
    (fuel : Nat) : Triple next I (Prog.forBelow bound body fuel lo) fun _ => I := by
  induction fuel generalizing lo with
  | zero => exact pure fun _ _ => id
  | succ fuel ih =>
    intro s w hI
    by_cases hlo : lo < bound s
    · obtain ⟨w1, h1, hI1⟩ := h lo (Nat.le_refl lo) s w ⟨hI, hlo⟩
      obtain ⟨w2, h2, hI2⟩ := ih (fun i hi => h i (Nat.le_of_succ_le hi)) _ w1 hI1
      refine ⟨w2, ?_, ?_⟩
      · rw [Prog.calls_forBelow_succ bound body hlo, replay_append_some h1, h2]
      · rw [Prog.final_forBelow_succ bound body hlo]; exact hI2
    · refine ⟨w, ?_, ?_⟩
      · rw [Prog.calls_forBelow_stop bound body hlo, replay_nil]
      · rw [Prog.final_forBelow_stop bound body hlo]; exact hI

/-- The rule of a run: if every round keeps the invariant from the inputs that are admitted after
the calls made so far, then the calls of the whole run are allowed and the invariant holds after
it. -/
theorem run {I : σ → W → Prop} {C : List κ → σ → ι → Prop} {body : ι → Prog σ κ Unit} {w₀ : W}
    (hbody : ∀ h i, Triple next (fun s w => I s w ∧ replay next w₀ h = some w ∧ C h s i) (body i)
      fun _ => I)
    {is : List ι} {h : List κ} {s : σ} {w : W} (hI : I s w) (hw : replay next w₀ h = some w)
    (hC : Prog.AllSteps body C h s is) :
    ∃ w', replay next w₀ (h ++ (Prog.forEach body is).calls s) = some w' ∧
      I ((Prog.forEach body is).final s) w' := by
  induction is generalizing h s w with
  | nil => exact ⟨w, by simpa using hw, hI⟩
  | cons i is ih =>
    obtain ⟨w1, h1, hI1⟩ := hbody h i s w ⟨hI, hw, hC.1⟩
    have hw1 : replay next w₀ (h ++ (body i).calls s) = some w1 := by
      rw [replay_append_some hw, h1]
    obtain ⟨w2, h2, hI2⟩ := ih hI1 hw1 hC.2
    exact ⟨w2, by simpa using h2, hI2⟩

end Triple

/-! ## Ledgers -/

/-- The resources `ρ` that are held, each with its status. -/
abbrev Ledger (ρ α : Type) := ρ → Option α

namespace Ledger

variable {ρ : Type} [DecidableEq ρ] {L : Ledger ρ α} {r : ρ} {a : α}

/-- Nothing is held. -/
def empty : Ledger ρ α := fun _ => none

/-- Take a resource that is not held. -/
def acquire (L : Ledger ρ α) (r : ρ) (a : α) : Option (Ledger ρ α) :=
  if L r = none then some (Function.update L r (some a)) else none

/-- Give a resource back that is held in an acceptable status. -/
def release (L : Ledger ρ α) (r : ρ) (ok : α → Prop) [DecidablePred ok] : Option (Ledger ρ α) :=
  match L r with
  | some a => if ok a then some (Function.update L r none) else none
  | none => none

/-- Use a resource that is held in an acceptable status; the use may change the status. -/
def use (L : Ledger ρ α) (r : ρ) (ok : α → Prop) [DecidablePred ok] (f : α → α) :
    Option (Ledger ρ α) :=
  match L r with
  | some a => if ok a then some (Function.update L r (some (f a))) else none
  | none => none

theorem acquire_of_none (h : L r = none) : L.acquire r a = some (Function.update L r (some a)) :=
  if_pos h

theorem release_of_some {ok : α → Prop} [DecidablePred ok] (h : L r = some a) (hok : ok a) :
    L.release r ok = some (Function.update L r none) := by
  simp [release, h, hok]

theorem use_of_some {ok : α → Prop} [DecidablePred ok] {f : α → α} (h : L r = some a)
    (hok : ok a) : L.use r ok f = some (Function.update L r (some (f a))) := by
  simp [use, h, hok]

/-- A use that keeps the status keeps the ledger. -/
theorem use_same {ok : α → Prop} [DecidablePred ok] {f : α → α} (h : L r = some a) (hok : ok a)
    (hf : f a = a) : L.use r ok f = some L := by
  rw [use_of_some h hok, hf, ← h, Function.update_eq_self]

/-- Releasing resources that are held, one after another and none of them twice, is allowed. -/
theorem release_all {rs : List ρ} (hnodup : rs.Nodup) (hheld : ∀ r ∈ rs, L r ≠ none) :
    ∃ L', rs.foldlM (fun L r => Ledger.release L r fun _ => True) L = some L' ∧
      ∀ r, L' r = if r ∈ rs then none else L r := by
  induction rs generalizing L with
  | nil => exact ⟨L, rfl, fun r => by simp⟩
  | cons q rs ih =>
    obtain ⟨hq, hnodup'⟩ := List.nodup_cons.1 hnodup
    obtain ⟨a, ha⟩ := Option.ne_none_iff_exists'.1 (hheld q List.mem_cons_self)
    have hheld' : ∀ r ∈ rs, Function.update L q none r ≠ none := by
      intro r hr
      have hrq : r ≠ q := by
        rintro rfl
        exact hq hr
      rw [Function.update_of_ne hrq]
      exact hheld r (List.mem_cons_of_mem _ hr)
    obtain ⟨L', h1, h2⟩ := ih hnodup' hheld'
    refine ⟨L', ?_, fun r => ?_⟩
    · rw [List.foldlM_cons, release_of_some ha trivial]
      exact h1
    · rw [h2]
      by_cases hrq : r = q
      · subst hrq
        simp
      · simp [hrq]

end Ledger

end Foundations
