import Mathlib.Data.List.Basic

/-!
# Programs that make calls

A `Prog σ κ α` is a piece of imperative code: it runs over variables of type `σ`, makes calls of
type `κ` to the outside, and returns an `α`. What the outside answers is not part of the program;
it is passed in as an ordinary argument, so that a statement about a program quantifies over every
possible answer.

The module also has the loops of the developments that use it. `forEach` runs a body once for
every element of a list; over a list of inputs it is a whole run of a system, and `AllSteps` and
`AtHeads` talk about the states such a run passes through. `untilReturn` ends with the first round that
returns something. `forBelow` is the loop `for (i = lo; i < bound; i++)` whose bound is read again before
every round.
-/

namespace Foundations

/-- A program over the variables `σ` that makes calls `κ` and returns an `α`. -/
def Prog (σ κ α : Type) : Type := σ → α × σ × List κ

namespace Prog

variable {σ κ α β ι : Type}

/-- The value a program returns. -/
def value (p : Prog σ κ α) (s : σ) : α := (p s).1

/-- The variables a program leaves behind. -/
def final (p : Prog σ κ α) (s : σ) : σ := (p s).2.1

/-- The calls a program makes, in order. -/
def calls (p : Prog σ κ α) (s : σ) : List κ := (p s).2.2

instance : Monad (Prog σ κ) where
  pure a := fun s => (a, s, [])
  bind p f := fun s => ((f (p.value s)).value (p.final s), (f (p.value s)).final (p.final s),
    p.calls s ++ (f (p.value s)).calls (p.final s))

/-- Read the variables. -/
def get : Prog σ κ σ := fun s => (s, s, [])

/-- Change the variables. -/
def modify (f : σ → σ) : Prog σ κ Unit := fun s => ((), f s, [])

/-- Make one call. -/
def call (c : κ) : Prog σ κ Unit := fun s => ((), s, [c])

section Equations

variable (p : Prog σ κ α) (f : α → Prog σ κ β) (s : σ)

@[simp] theorem value_pure (a : α) : (pure a : Prog σ κ α).value s = a := rfl
@[simp] theorem final_pure (a : α) : (pure a : Prog σ κ α).final s = s := rfl
@[simp] theorem calls_pure (a : α) : (pure a : Prog σ κ α).calls s = [] := rfl

@[simp] theorem value_bind : (p >>= f).value s = (f (p.value s)).value (p.final s) := rfl
@[simp] theorem final_bind : (p >>= f).final s = (f (p.value s)).final (p.final s) := rfl
@[simp] theorem calls_bind :
    (p >>= f).calls s = p.calls s ++ (f (p.value s)).calls (p.final s) := rfl

@[simp] theorem value_get : (get : Prog σ κ σ).value s = s := rfl
@[simp] theorem final_get : (get : Prog σ κ σ).final s = s := rfl
@[simp] theorem calls_get : (get : Prog σ κ σ).calls s = [] := rfl

-- these come before the equations for `bind`, so that a condition on the variables read and its
-- decision procedure are rewritten together
@[simp high] theorem value_get_bind (f : σ → Prog σ κ β) : (get >>= f).value s = (f s).value s := rfl
@[simp high] theorem final_get_bind (f : σ → Prog σ κ β) : (get >>= f).final s = (f s).final s := rfl
@[simp high] theorem calls_get_bind (f : σ → Prog σ κ β) : (get >>= f).calls s = (f s).calls s := rfl

@[simp] theorem final_modify (g : σ → σ) : (modify g : Prog σ κ Unit).final s = g s := rfl
@[simp] theorem calls_modify (g : σ → σ) : (modify g : Prog σ κ Unit).calls s = [] := rfl

@[simp] theorem final_call (c : κ) : (call c : Prog σ κ Unit).final s = s := rfl
@[simp] theorem calls_call (c : κ) : (call c : Prog σ κ Unit).calls s = [c] := rfl

variable (c : Prop) [Decidable c] (q : Prog σ κ α)

@[simp] theorem value_ite :
    (if c then p else q).value s = if c then p.value s else q.value s := by split <;> rfl
@[simp] theorem final_ite :
    (if c then p else q).final s = if c then p.final s else q.final s := by split <;> rfl
@[simp] theorem calls_ite :
    (if c then p else q).calls s = if c then p.calls s else q.calls s := by split <;> rfl

end Equations

/-! ## One round for every element of a list -/

/-- Run the body once for every element of the list. -/
def forEach (body : ι → Prog σ κ Unit) : List ι → Prog σ κ Unit
  | [] => pure ()
  | i :: is => do
    body i
    forEach body is

variable (body : ι → Prog σ κ Unit)

@[simp] theorem final_forEach_nil (s : σ) : (forEach body []).final s = s := rfl
@[simp] theorem calls_forEach_nil (s : σ) : (forEach body []).calls s = [] := rfl

@[simp] theorem final_forEach_cons (i : ι) (is : List ι) (s : σ) :
    (forEach body (i :: is)).final s = (forEach body is).final ((body i).final s) := rfl

@[simp] theorem calls_forEach_cons (i : ι) (is : List ι) (s : σ) :
    (forEach body (i :: is)).calls s =
      (body i).calls s ++ (forEach body is).calls ((body i).final s) := rfl

/-- Rounds that leave the variables alone leave them alone together. -/
theorem final_forEach_of_same (h : ∀ i s, (body i).final s = s) (is : List ι) (s : σ) :
    (forEach body is).final s = s := by
  induction is with
  | nil => rfl
  | cons i is ih => rw [final_forEach_cons, h, ih]

/-- A loop that makes one call in each round whose condition holds. -/
theorem calls_forEach_callIf (c : σ → ι → Prop) [∀ s i, Decidable (c s i)] (k : σ → ι → κ)
    (is : List ι) (s : σ) :
    (forEach (fun i => get >>= fun s => if c s i then call (k s i) else pure ()) is).calls s =
      (is.filter fun i => c s i).map (k s) := by
  induction is with
  | nil => rfl
  | cons i is ih =>
    rw [calls_forEach_cons]
    by_cases h : c s i <;> simp [h, ih]

theorem final_forEach_callIf (c : σ → ι → Prop) [∀ s i, Decidable (c s i)] (k : σ → ι → κ)
    (is : List ι) (s : σ) :
    (forEach (fun i => get >>= fun s => if c s i then call (k s i) else pure ()) is).final s = s :=
  final_forEach_of_same _ (fun i s => by by_cases h : c s i <;> simp [h]) is s

/-- A condition on every round: on the calls made before it, the variables it starts from and the
input it takes. -/
def AllSteps (C : List κ → σ → ι → Prop) : List κ → σ → List ι → Prop
  | _, _, [] => True
  | h, s, i :: is => C h s i ∧ AllSteps C (h ++ (body i).calls s) ((body i).final s) is

/-- `P` holds of the variables before the first round, between any two rounds and after the last. -/
def AtHeads (P : σ → Prop) (s : σ) (is : List ι) : Prop :=
  ∀ pre, pre <+: is → P ((forEach body pre).final s)

variable {body}

theorem AllSteps.mono {C D : List κ → σ → ι → Prop} (hCD : ∀ h s i, C h s i → D h s i)
    {h : List κ} {s : σ} {is : List ι} (hC : AllSteps body C h s is) : AllSteps body D h s is := by
  induction is generalizing h s with
  | nil => trivial
  | cons i is ih => exact ⟨hCD _ _ _ hC.1, ih hC.2⟩

theorem allSteps_true {h : List κ} {s : σ} {is : List ι} :
    AllSteps body (fun _ _ _ => True) h s is := by
  induction is generalizing h s with
  | nil => trivial
  | cons i is ih => exact ⟨trivial, ih⟩

theorem allSteps_append {C : List κ → σ → ι → Prop} {h : List κ} {s : σ} {is js : List ι} :
    AllSteps body C h s (is ++ js) ↔ AllSteps body C h s is ∧
      AllSteps body C (h ++ (forEach body is).calls s) ((forEach body is).final s) js := by
  induction is generalizing h s with
  | nil => simp [AllSteps]
  | cons i is ih => simp [AllSteps, ih, and_assoc]

/-- A condition that does not look at the earlier calls holds after any calls. -/
theorem AllSteps.history {C : σ → ι → Prop} {h h' : List κ} {s : σ} {is : List ι}
    (hC : AllSteps body (fun _ => C) h s is) : AllSteps body (fun _ => C) h' s is := by
  induction is generalizing h h' s with
  | nil => trivial
  | cons i is ih => exact ⟨hC.1, ih hC.2⟩

/-- Two conditions on every round, and an invariant that they keep. -/
theorem AllSteps.with_invariant {J : List κ → σ → Prop} {C D : List κ → σ → ι → Prop}
    (hstep : ∀ h s i, J h s → C h s i → D h s i → J (h ++ (body i).calls s) ((body i).final s))
    {h : List κ} {s : σ} {is : List ι} (hJ : J h s) (hC : AllSteps body C h s is)
    (hD : AllSteps body D h s is) :
    AllSteps body (fun h s i => J h s ∧ C h s i ∧ D h s i) h s is := by
  induction is generalizing h s with
  | nil => trivial
  | cons i is ih => exact ⟨⟨hJ, hC.1, hD.1⟩, ih (hstep h s i hJ hC.1 hD.1) hC.2 hD.2⟩

theorem append_eq_append_iff_of_sublist {γ : Type} {xs ys xs' ys' : List γ} (hx : xs.Sublist xs')
    (hy : ys.Sublist ys') : xs ++ ys = xs' ++ ys' ↔ xs = xs' ∧ ys = ys' := by
  constructor
  · intro h
    have hlen := congrArg List.length h
    rw [List.length_append, List.length_append] at hlen
    have hx' := hx.length_le
    have hy' := hy.length_le
    exact ⟨hx.eq_of_length (by omega), hy.eq_of_length (by omega)⟩
  · rintro ⟨rfl, rfl⟩
    rfl

/-- What the calls of a run put out, against what they take in: if in every round a part of what
comes in goes out, and all of it exactly on a condition, then all that comes in during the run goes
out if and only if every round meets the condition. -/
theorem AllSteps.out_eq_in_iff {γ : Type} {outOf inOf : κ → List γ} {C : List κ → σ → ι → Prop}
    {D : σ → ι → Prop}
    (hstep : ∀ h s i, C h s i →
      (((body i).calls s).flatMap outOf).Sublist (((body i).calls s).flatMap inOf) ∧
      (((body i).calls s).flatMap outOf = ((body i).calls s).flatMap inOf ↔ D s i))
    {h : List κ} {s : σ} {is : List ι} (hC : AllSteps body C h s is) :
    (((forEach body is).calls s).flatMap outOf).Sublist
      (((forEach body is).calls s).flatMap inOf) ∧
    (((forEach body is).calls s).flatMap outOf = ((forEach body is).calls s).flatMap inOf ↔
      AllSteps body (fun _ => D) h s is) := by
  induction is generalizing h s with
  | nil => simp [AllSteps]
  | cons i is ih =>
    obtain ⟨h1, h2⟩ := hstep h s i hC.1
    obtain ⟨ih1, ih2⟩ := ih hC.2
    rw [calls_forEach_cons, List.flatMap_append, List.flatMap_append]
    refine ⟨h1.append ih1, ?_⟩
    rw [append_eq_append_iff_of_sublist h1 ih1, h2, ih2]
    rfl

theorem atHeads_nil {P : σ → Prop} {s : σ} : AtHeads body P s [] ↔ P s := by
  simp [AtHeads]

theorem atHeads_cons {P : σ → Prop} {s : σ} {i : ι} {is : List ι} :
    AtHeads body P s (i :: is) ↔ P s ∧ AtHeads body P ((body i).final s) is := by
  constructor
  · intro h
    refine ⟨h [] (List.nil_prefix), fun pre hpre => ?_⟩
    exact h (i :: pre) ((List.prefix_cons_inj i).2 hpre)
  · rintro ⟨h0, h1⟩ pre hpre
    cases pre with
    | nil => exact h0
    | cons j pre =>
      obtain ⟨rfl, hp⟩ := List.cons_prefix_cons.1 hpre
      exact h1 pre hp

/-- If a property goes wrong exactly in the rounds that break the condition, then it holds all along
a run if and only if every round meets the condition. `J` is the invariant of the good rounds. -/
theorem atHeads_iff_allSteps {J P : σ → Prop} {C : σ → ι → Prop} (hJ : ∀ s, J s → P s)
    (hkeep : ∀ s i, J s → C s i → J ((body i).final s))
    (hbreak : ∀ s i, J s → ¬ C s i → ¬ P ((body i).final s))
    {h : List κ} {s : σ} {is : List ι} (hs : J s) :
    AtHeads body P s is ↔ AllSteps body (fun _ => C) h s is := by
  induction is generalizing h s with
  | nil => exact ⟨fun _ => trivial, fun _ => atHeads_nil.2 (hJ s hs)⟩
  | cons i is ih =>
    rw [atHeads_cons]
    by_cases hC : C s i
    · exact ⟨fun hp => ⟨hC, (ih (hkeep s i hs hC)).1 hp.2⟩,
        fun hc => ⟨hJ s hs, (ih (hkeep s i hs hC)).2 hc.2⟩⟩
    · refine ⟨fun hp => absurd (hp.2 [] List.nil_prefix) (hbreak s i hs hC), fun hc => absurd hc.1 hC⟩

/-- `P` holds of the calls made and the variables reached before the first round, between any two
rounds and after the last. -/
def AlongRun (body : ι → Prog σ κ Unit) (P : List κ → σ → Prop) (h : List κ) (s : σ)
    (is : List ι) : Prop :=
  ∀ pre, pre <+: is → P (h ++ (forEach body pre).calls s) ((forEach body pre).final s)

theorem alongRun_nil {P : List κ → σ → Prop} {h : List κ} {s : σ} :
    AlongRun body P h s [] ↔ P h s := by
  simp [AlongRun]

theorem alongRun_cons {P : List κ → σ → Prop} {h : List κ} {s : σ} {i : ι} {is : List ι} :
    AlongRun body P h s (i :: is) ↔
      P h s ∧ AlongRun body P (h ++ (body i).calls s) ((body i).final s) is := by
  constructor
  · intro hp
    refine ⟨?_, fun pre hpre => ?_⟩
    · have h0 := hp [] List.nil_prefix
      rwa [calls_forEach_nil, List.append_nil] at h0
    · have h1 := hp (i :: pre) ((List.prefix_cons_inj i).2 hpre)
      rwa [calls_forEach_cons, ← List.append_assoc] at h1
  · rintro ⟨h0, h1⟩ pre hpre
    cases pre with
    | nil => rwa [calls_forEach_nil, List.append_nil]
    | cons j pre =>
      obtain ⟨rfl, hp⟩ := List.cons_prefix_cons.1 hpre
      rw [calls_forEach_cons, ← List.append_assoc]
      exact h1 pre hp

/-- `atHeads_iff_allSteps` with the calls in view, for rounds whose inputs the outside restricts by
`D`. -/
theorem alongRun_iff_allSteps {J P : List κ → σ → Prop} {C D : List κ → σ → ι → Prop}
    (hJ : ∀ h s, J h s → P h s)
    (hkeep : ∀ h s i, J h s → D h s i → C h s i → J (h ++ (body i).calls s) ((body i).final s))
    (hbreak : ∀ h s i, J h s → D h s i → ¬ C h s i →
      ¬ P (h ++ (body i).calls s) ((body i).final s))
    {h : List κ} {s : σ} {is : List ι} (hs : J h s) (hD : AllSteps body D h s is) :
    AlongRun body P h s is ↔ AllSteps body C h s is := by
  induction is generalizing h s with
  | nil => exact ⟨fun _ => trivial, fun _ => alongRun_nil.2 (hJ h s hs)⟩
  | cons i is ih =>
    rw [alongRun_cons]
    by_cases hC : C h s i
    · have hrest := ih (hkeep h s i hs hD.1 hC) hD.2
      exact ⟨fun hp => ⟨hC, hrest.1 hp.2⟩, fun hc => ⟨hJ h s hs, hrest.2 hc.2⟩⟩
    · have hbad := hbreak h s i hs hD.1 hC
      refine ⟨fun hp => absurd ?_ hbad, fun hc => absurd hc.1 hC⟩
      have h0 := hp.2 [] List.nil_prefix
      rwa [calls_forEach_nil, List.append_nil] at h0

/-- A property of the rounds that comes out exactly in the rounds that meet the condition. `J` is the
invariant of the good rounds. -/
theorem allSteps_iff_allSteps {J : List κ → σ → Prop} {C D Q : List κ → σ → ι → Prop}
    (hiff : ∀ h s i, J h s → D h s i → (Q h s i ↔ C h s i))
    (hkeep : ∀ h s i, J h s → D h s i → C h s i → J (h ++ (body i).calls s) ((body i).final s))
    {h : List κ} {s : σ} {is : List ι} (hs : J h s) (hD : AllSteps body D h s is) :
    AllSteps body Q h s is ↔ AllSteps body C h s is := by
  induction is generalizing h s with
  | nil => exact Iff.rfl
  | cons i is ih =>
    have h1 := hiff h s i hs hD.1
    constructor
    · rintro ⟨hq, hqs⟩
      exact ⟨h1.1 hq, (ih (hkeep h s i hs hD.1 (h1.1 hq)) hD.2).1 hqs⟩
    · rintro ⟨hc, hcs⟩
      exact ⟨h1.2 hc, (ih (hkeep h s i hs hD.1 hc) hD.2).2 hcs⟩

/-- A condition on every call of a run is one on the calls of every round. -/
theorem allSteps_calls_iff {Q : κ → Prop} {h : List κ} {s : σ} {is : List ι} :
    AllSteps body (fun _ s i => ∀ c ∈ (body i).calls s, Q c) h s is ↔
      ∀ c ∈ (forEach body is).calls s, Q c := by
  induction is generalizing h s with
  | nil => simp [AllSteps]
  | cons i is ih =>
    rw [AllSteps, ih, calls_forEach_cons, List.forall_mem_append]

/-! ## A value carried along -/

section Carry

variable {γ : Type} (g : γ → σ → ι → γ)

/-- A value that every round changes, by the variables it starts from and the input it takes. -/
def carry (body : ι → Prog σ κ Unit) (g : γ → σ → ι → γ) : γ → σ → List ι → γ
  | c, _, [] => c
  | c, s, i :: is => carry body g (g c s i) ((body i).final s) is

theorem final_forEach_append (s : σ) (is js : List ι) :
    (forEach body (is ++ js)).final s = (forEach body js).final ((forEach body is).final s) := by
  induction is generalizing s with
  | nil => rfl
  | cons i is ih => rw [List.cons_append, final_forEach_cons, ih, final_forEach_cons]

theorem calls_forEach_append (s : σ) (is js : List ι) :
    (forEach body (is ++ js)).calls s =
      (forEach body is).calls s ++ (forEach body js).calls ((forEach body is).final s) := by
  induction is generalizing s with
  | nil => rfl
  | cons i is ih =>
    rw [List.cons_append, calls_forEach_cons, ih, calls_forEach_cons, final_forEach_cons,
      List.append_assoc]

theorem carry_append (c : γ) (s : σ) (is js : List ι) :
    carry body g c s (is ++ js) =
      carry body g (carry body g c s is) ((forEach body is).final s) js := by
  induction is generalizing c s with
  | nil => rfl
  | cons i is ih => rw [List.cons_append, carry, ih, carry, final_forEach_cons]

/-- A relation between the value and the variables that every round keeps. -/
theorem carry_invariant {J : γ → σ → Prop} (hstep : ∀ c s i, J c s → J (g c s i) ((body i).final s))
    {c : γ} {s : σ} (hJ : J c s) (is : List ι) :
    J (carry body g c s is) ((forEach body is).final s) := by
  induction is generalizing c s with
  | nil => exact hJ
  | cons i is ih => exact ih (hstep c s i hJ)

end Carry

/-! ## A loop that may return -/

/-- Run the body for one element after the other until it returns something. Where it never does, the
loop is still running. -/
def untilReturn (body : ι → Prog σ κ (Option α)) : List ι → Prog σ κ (Option α)
  | [] => pure none
  | i :: is => do
    match ← body i with
    | some r => pure (some r)
    | none => untilReturn body is

/-! ## The counting loop -/

/-- `for (; i < bound; i++) body(i)`, where the bound is read from the variables before every round.
The first argument bounds the number of rounds. -/
def forBelow (bound : σ → Nat) (body : Nat → Prog σ κ Unit) : Nat → Nat → Prog σ κ Unit
  | 0, _ => pure ()
  | fuel + 1, i => do
    let s ← get
    if i < bound s then
      body i
      forBelow bound body fuel (i + 1)
    else
      pure ()

section ForBelow

variable (bound : σ → Nat) (body : Nat → Prog σ κ Unit)

theorem forBelow_stop {fuel i : Nat} {s : σ} (h : ¬ i < bound s) :
    forBelow bound body fuel i s = ((), s, []) := by
  cases fuel with
  | zero => rfl
  | succ fuel =>
    show ((if i < bound s then _ else _ : Prog σ κ Unit).value s, _, _) = _
    simp only [if_neg h]
    simp [h]

theorem final_forBelow_stop {fuel i : Nat} {s : σ} (h : ¬ i < bound s) :
    (forBelow bound body fuel i).final s = s := by
  simp [final, forBelow_stop bound body h]

theorem calls_forBelow_stop {fuel i : Nat} {s : σ} (h : ¬ i < bound s) :
    (forBelow bound body fuel i).calls s = [] := by
  simp [calls, forBelow_stop bound body h]

theorem final_forBelow_succ {fuel i : Nat} {s : σ} (h : i < bound s) :
    (forBelow bound body (fuel + 1) i).final s =
      (forBelow bound body fuel (i + 1)).final ((body i).final s) := by
  simp [forBelow, h]

theorem calls_forBelow_succ {fuel i : Nat} {s : σ} (h : i < bound s) :
    (forBelow bound body (fuel + 1) i).calls s =
      (body i).calls s ++ (forBelow bound body fuel (i + 1)).calls ((body i).final s) := by
  simp [forBelow, h]

/-- When no round raises the bound, `bound s` rounds are all the loop ever makes: more fuel changes
nothing, so the loop ends because its condition fails. -/
theorem forBelow_fuel (hbound : ∀ i s, bound ((body i).final s) ≤ bound s) :
    ∀ (fuel i : Nat) (s : σ), bound s ≤ fuel + i → ∀ extra,
      (forBelow bound body (fuel + extra) i).final s = (forBelow bound body fuel i).final s ∧
      (forBelow bound body (fuel + extra) i).calls s = (forBelow bound body fuel i).calls s := by
  intro fuel
  induction fuel with
  | zero =>
    intro i s hle extra
    have h : ¬ i < bound s := by omega
    simp only [final_forBelow_stop bound body h, calls_forBelow_stop bound body h, and_self]
  | succ fuel ih =>
    intro i s hle extra
    by_cases h : i < bound s
    · have hb := hbound i s
      obtain ⟨h1, h2⟩ := ih (i + 1) ((body i).final s) (by omega) extra
      have hf : fuel + 1 + extra = fuel + extra + 1 := by omega
      rw [hf, final_forBelow_succ bound body h, final_forBelow_succ bound body h,
        calls_forBelow_succ bound body h, calls_forBelow_succ bound body h, h1, h2]
      exact ⟨rfl, rfl⟩
    · simp only [final_forBelow_stop bound body h, calls_forBelow_stop bound body h, and_self]

/-- When no round changes the bound, the loop makes one round for every number from `lo` to the
bound. -/
theorem forBelow_eq_forEach (hbound : ∀ i s, bound ((body i).final s) = bound s) :
    ∀ (fuel lo : Nat) (s : σ), bound s ≤ fuel + lo →
      (forBelow bound body fuel lo).final s =
        (forEach body (List.range' lo (bound s - lo))).final s ∧
      (forBelow bound body fuel lo).calls s =
        (forEach body (List.range' lo (bound s - lo))).calls s := by
  intro fuel
  induction fuel with
  | zero =>
    intro lo s hle
    have hempty : bound s - lo = 0 := by omega
    rw [hempty]
    exact ⟨rfl, rfl⟩
  | succ fuel ih =>
    intro lo s hle
    by_cases h : lo < bound s
    · have hb := hbound lo s
      obtain ⟨h1, h2⟩ := ih (lo + 1) ((body lo).final s) (by omega)
      have hlen : bound s - lo = bound s - (lo + 1) + 1 := by omega
      rw [final_forBelow_succ bound body h, calls_forBelow_succ bound body h, h1, h2, hb, hlen,
        List.range'_succ]
      exact ⟨rfl, rfl⟩
    · have hempty : bound s - lo = 0 := by omega
      rw [final_forBelow_stop bound body h, calls_forBelow_stop bound body h, hempty]
      exact ⟨rfl, rfl⟩

end ForBelow

/-! ## A condition on every call -/

/-- Every call the program makes, from whatever variables, satisfies `P`. -/
def AllCalls (P : κ → Prop) (p : Prog σ κ α) : Prop := ∀ s, ∀ c ∈ p.calls s, P c

namespace AllCalls

variable {P : κ → Prop}

theorem mono {Q : κ → Prop} (hPQ : ∀ c, P c → Q c) {p : Prog σ κ α} (h : AllCalls P p) :
    AllCalls Q p :=
  fun s c hc => hPQ c (h s c hc)

theorem pure (a : α) : AllCalls P (Pure.pure a : Prog σ κ α) := by
  intro s c hc
  cases hc

theorem get : AllCalls P (Prog.get : Prog σ κ σ) := by
  intro s c hc
  cases hc

theorem modify (f : σ → σ) : AllCalls P (Prog.modify f : Prog σ κ Unit) := by
  intro s c hc
  cases hc

theorem call {c : κ} (h : P c) : AllCalls P (Prog.call c : Prog σ κ Unit) := by
  intro s d hd
  rw [calls_call, List.mem_singleton] at hd
  exact hd ▸ h

theorem bind {p : Prog σ κ α} {f : α → Prog σ κ β} (hp : AllCalls P p)
    (hf : ∀ a, AllCalls P (f a)) : AllCalls P (p >>= f) := by
  intro s c hc
  rw [calls_bind, List.mem_append] at hc
  rcases hc with hc | hc
  · exact hp s c hc
  · exact hf _ _ c hc

theorem ite {c : Prop} [Decidable c] {p q : Prog σ κ α} (hp : AllCalls P p) (hq : AllCalls P q) :
    AllCalls P (if c then p else q) := by
  split
  · exact hp
  · exact hq

theorem forEach_mem {body : ι → Prog σ κ Unit} {is : List ι} (h : ∀ i ∈ is, AllCalls P (body i)) :
    AllCalls P (Prog.forEach body is) := by
  induction is with
  | nil => exact pure ()
  | cons i is ih =>
    exact bind (h i List.mem_cons_self) fun _ => ih fun j hj => h j (List.mem_cons_of_mem _ hj)

theorem forEach {body : ι → Prog σ κ Unit} (h : ∀ i, AllCalls P (body i)) (is : List ι) :
    AllCalls P (Prog.forEach body is) :=
  forEach_mem fun i _ => h i

theorem forBelow {bound : σ → Nat} {body : Nat → Prog σ κ Unit} (h : ∀ i, AllCalls P (body i)) :
    ∀ fuel i, AllCalls P (Prog.forBelow bound body fuel i) := by
  intro fuel
  induction fuel with
  | zero => exact fun _ => pure ()
  | succ fuel ih => exact fun i => bind get fun _ => ite (bind (h i) fun _ => ih (i + 1)) (pure ())

end AllCalls

end Prog

end Foundations
