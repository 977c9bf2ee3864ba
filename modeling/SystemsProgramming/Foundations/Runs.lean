import SystemsProgramming.Foundations.Protocol
import Mathlib.Data.List.TakeWhile
import Mathlib.Order.WellFounded

/-!
# Runs of a transition system

A transition system is a partial function `step : S → A → Option S`: in the state `s` the action `a`
either is not possible, or it leads to a new state. Who moves and what the environment answers is part
of the action, so the runs of the system are the lists of actions that `replay` gets through, and a
statement about all of them is one about every interleaving.
-/

namespace Foundations

variable {S A : Type} {step : S → A → Option S} {s s' s'' : S}

/-- Some run leads from `s` to `s'`. -/
def Reachable (step : S → A → Option S) (s s' : S) : Prop := ∃ acts, replay step s acts = some s'

/-- No action is possible. -/
def Stuck (step : S → A → Option S) (s : S) : Prop := ∀ a, step s a = none

namespace Reachable

theorem refl (s : S) : Reachable step s s := ⟨[], rfl⟩

theorem trans (h : Reachable step s s') (h' : Reachable step s' s'') : Reachable step s s'' := by
  obtain ⟨acts, h⟩ := h
  obtain ⟨acts', h'⟩ := h'
  exact ⟨acts ++ acts', by rw [replay_append_some h, h']⟩

theorem of_step {a : A} (h : step s a = some s') : Reachable step s s' := by
  refine ⟨[a], ?_⟩
  rw [replay_cons, h]
  rfl

/-- What holds at the beginning and is kept by every step holds in every state that is reached. -/
theorem invariant {I : S → Prop} (h : Reachable step s s') (hs : I s)
    (hstep : ∀ s a s', I s → step s a = some s' → I s') : I s' := by
  obtain ⟨acts, h⟩ := h
  induction acts generalizing s with
  | nil =>
    cases h
    exact hs
  | cons a acts ih =>
    rw [replay_cons, Option.bind_eq_some_iff] at h
    obtain ⟨s1, h1, h2⟩ := h
    exact ih (hstep s a s1 hs h1) h2

end Reachable

/-! ## Conditions on the steps of a run -/

/-- Every step of the run meets the condition. -/
def Throughout (step : S → A → Option S) (C : S → A → Prop) : S → List A → Prop
  | _, [] => True
  | s, a :: acts => C s a ∧ ∀ s', step s a = some s' → Throughout step C s' acts

/-- A property that goes with the step that breaks the condition, and with which the run stops, holds
at the end of a run if and only if every step meets the condition. `I` is the invariant of the good
steps, and `D` what is known of the actions. -/
theorem replay_iff_throughout {I P : S → Prop} {C : S → A → Prop} {D : A → Prop}
    (hstep : ∀ s a s', I s → P s → D a → step s a = some s' → I s' ∧ (P s' ↔ C s a))
    (hstuck : ∀ s, ¬ P s → Stuck step s) {acts : List A} (hI : I s) (hP : P s)
    (hD : ∀ a ∈ acts, D a) (h : replay step s acts = some s') :
    I s' ∧ (P s' ↔ Throughout step C s acts) := by
  induction acts generalizing s with
  | nil =>
    cases h
    exact ⟨hI, iff_of_true hP trivial⟩
  | cons a acts ih =>
    rw [List.forall_mem_cons] at hD
    rw [replay_cons, Option.bind_eq_some_iff] at h
    obtain ⟨s1, h1, h2⟩ := h
    obtain ⟨hI1, hiff⟩ := hstep s a s1 hI hP hD.1 h1
    by_cases hP1 : P s1
    · obtain ⟨hI', hrest⟩ := ih hI1 hP1 hD.2 h2
      refine ⟨hI', ?_⟩
      rw [hrest, Throughout, h1]
      simp [hiff.1 hP1]
    · have hnil : acts = [] := by
        cases acts with
        | nil => rfl
        | cons b acts =>
          rw [replay_cons, hstuck s1 hP1 b] at h2
          cases h2
      subst hnil
      cases h2
      exact ⟨hI1, iff_of_false hP1 fun hall => hP1 (hiff.2 hall.1)⟩

/-! ## The run of a part -/

/-- A part of the system that takes a step with every action that is its own, and stays as it is in all
others: what a run of the system makes of it is what a run of its own actions makes of it. -/
theorem replay_part {T B : Type} (part : S → T) {own : A → Option B} {stepT : T → B → Option T}
    (hown : ∀ s a b s', own a = some b → step s a = some s' → stepT (part s) b = some (part s'))
    (hother : ∀ s a s', own a = none → step s a = some s' → part s' = part s) {acts : List A}
    (h : replay step s acts = some s') :
    replay stepT (part s) (acts.filterMap own) = some (part s') := by
  induction acts generalizing s with
  | nil =>
    cases h
    rfl
  | cons a acts ih =>
    rw [replay_cons, Option.bind_eq_some_iff] at h
    obtain ⟨s1, h1, h2⟩ := h
    cases ha : own a with
    | none =>
      rw [List.filterMap_cons_none ha, ← hother s a s1 ha h1]
      exact ih h2
    | some b =>
      rw [List.filterMap_cons_some ha, replay_cons, hown s a b s1 ha h1]
      exact ih h2

/-- What a part does with an action of the system: its step where the action is its own, and nothing
otherwise. -/
def onOwn {T B : Type} (own : A → Option B) (stepT : T → B → Option T) (t : T) (a : A) : Option T :=
  match own a with
  | some b => stepT t b
  | none => some t

theorem replay_onOwn {T B : Type} {own : A → Option B} {stepT : T → B → Option T} {t : T}
    {acts : List A} : replay (onOwn own stepT) t acts = replay stepT t (acts.filterMap own) := by
  induction acts generalizing t with
  | nil => rfl
  | cons a acts ih =>
    cases ha : own a with
    | none =>
      rw [List.filterMap_cons_none ha, replay_cons, onOwn, ha]
      exact ih
    | some b =>
      rw [List.filterMap_cons_some ha, replay_cons, replay_cons, onOwn, ha]
      exact congrArg (Option.bind _) (funext fun _ => ih)

/-- Two systems that take every action together. -/
def both {T : Type} (f : S → A → Option S) (g : T → A → Option T) (st : S × T) (a : A) :
    Option (S × T) :=
  (f st.1 a).bind fun s => (g st.2 a).map fun t => (s, t)

/-- A step of both is a step of each. -/
theorem both_eq_some {T : Type} {f : S → A → Option S} {g : T → A → Option T} {t t' : T} {a : A} :
    both f g (s, t) a = some (s', t') ↔ f s a = some s' ∧ g t a = some t' := by
  constructor
  · intro h
    obtain ⟨s1, hf, h⟩ := Option.bind_eq_some_iff.1 h
    obtain ⟨t1, hg, heq⟩ := Option.map_eq_some_iff.1 h
    cases heq
    exact ⟨hf, hg⟩
  · rintro ⟨hf, hg⟩
    rw [both, hf, hg]
    rfl

theorem replay_both {T : Type} {f : S → A → Option S} {g : T → A → Option T} {t t' : T}
    {acts : List A} (hf : replay f s acts = some s') (hg : replay g t acts = some t') :
    replay (both f g) (s, t) acts = some (s', t') := by
  induction acts generalizing s t with
  | nil =>
    cases hf
    cases hg
    rfl
  | cons a acts ih =>
    rw [replay_cons, Option.bind_eq_some_iff] at hf hg
    obtain ⟨s1, h1, hf⟩ := hf
    obtain ⟨t1, h2, hg⟩ := hg
    rw [replay_cons, both_eq_some.2 ⟨h1, h2⟩]
    exact ih hf hg

/-- An invariant that looks back at the actions taken so far. -/
theorem replay_history {I : List A → S → Prop} {acts : List A} (hs : I [] s)
    (hstep : ∀ h s a s', I h s → step s a = some s' → I (h ++ [a]) s')
    (h : replay step s acts = some s') : I acts s' := by
  have hgen : ∀ pre acts s, I pre s → replay step s acts = some s' → I (pre ++ acts) s' := by
    intro pre acts
    induction acts generalizing pre with
    | nil =>
      intro s hI h
      cases h
      rwa [List.append_nil]
    | cons a acts ih =>
      intro s hI h
      rw [replay_cons, Option.bind_eq_some_iff] at h
      obtain ⟨s1, h1, h2⟩ := h
      rw [List.append_cons]
      exact ih (pre ++ [a]) s1 (hstep pre s a s1 hI h1) h2
  exact hgen [] acts s hs h

/-- What is replayed without getting stuck can be replayed from the beginning up to anywhere. -/
theorem replay_prefix {pre acts : List A} (hpre : pre <+: acts) (h : replay step s acts = some s') :
    ∃ s'', replay step s pre = some s'' := by
  obtain ⟨rest, rfl⟩ := hpre
  rw [replay_append, Option.bind_eq_some_iff] at h
  obtain ⟨s1, h1, -⟩ := h
  exact ⟨s1, h1⟩

/-! ## The run since an action -/

section Since

variable {p : A → Bool} {acts more : List A}

/-- The actions behind the first one of this kind. -/
def since (p : A → Bool) (acts : List A) : List A := (acts.dropWhile fun a => !p a).tail

theorem since_append_of_mem (h : ∃ a ∈ acts, p a = true) : since p (acts ++ more) = since p acts ++ more := by
  have hne : acts.dropWhile (fun a => !p a) ≠ [] := by
    obtain ⟨a, ha, hpa⟩ := h
    intro hnil
    have hno := List.dropWhile_eq_nil_iff.1 hnil a ha
    rw [hpa] at hno
    cases hno
  rw [since, since, List.dropWhile_append, if_neg (by simpa using hne), List.tail_append_of_ne_nil hne]

theorem since_append_of_not_mem (h : ∀ a ∈ acts, p a = false) : since p (acts ++ more) = since p more := by
  have hnil : acts.dropWhile (fun a => !p a) = [] :=
    List.dropWhile_eq_nil_iff.2 fun a ha => by rw [h a ha]; rfl
  rw [since, since, List.dropWhile_append, hnil]
  rfl

theorem since_of_not_mem (h : ∀ a ∈ acts, p a = false) : since p acts = [] := by
  rw [← List.append_nil acts, since_append_of_not_mem h]
  rfl

theorem since_suffix (p : A → Bool) (acts : List A) : since p acts <:+ acts :=
  (List.tail_suffix _).trans (List.dropWhile_suffix _)

/-- Some action of the run adds something, and none after it resets. Whether an action does so depends on
what is before it. -/
def AddedSince (adds resets : List A → A → Prop) (acts : List A) : Prop :=
  ∃ done a later, acts = done ++ a :: later ∧ adds done a ∧
    ∀ between b rest, later = between ++ b :: rest → ¬ resets (done ++ a :: between) b

/-- The last action adds, or it does not reset and something was there. -/
theorem addedSince_concat {adds resets : List A → A → Prop} {a : A} :
    AddedSince adds resets (acts ++ [a]) ↔
      adds acts a ∨ AddedSince adds resets acts ∧ ¬ resets acts a := by
  constructor
  · rintro ⟨done, b, later, heq, hadds, hkeep⟩
    rcases List.eq_nil_or_concat' later with rfl | ⟨later, c, rfl⟩
    · obtain ⟨rfl, hb⟩ := List.append_inj' heq rfl
      obtain rfl := List.singleton_inj.1 hb
      exact Or.inl hadds
    · rw [← List.cons_append, ← List.append_assoc] at heq
      obtain ⟨rfl, hc⟩ := List.append_inj' heq rfl
      obtain rfl := List.singleton_inj.1 hc
      refine Or.inr ⟨⟨done, b, later, rfl, hadds, fun between d rest hlater => ?_⟩,
        hkeep later a [] rfl⟩
      exact hkeep between d (rest ++ [a]) (by rw [hlater, List.append_assoc, List.cons_append])
  · rintro (hadds | ⟨⟨done, b, later, rfl, hadds, hkeep⟩, hlast⟩)
    · exact ⟨acts, a, [], rfl, hadds, fun between b rest h => by simp at h⟩
    · refine ⟨done, b, later ++ [a], by simp, hadds, fun between c rest h => ?_⟩
      rcases List.eq_nil_or_concat' rest with rfl | ⟨rest, d, rfl⟩
      · obtain ⟨rfl, hc⟩ := List.append_inj' h rfl
        obtain rfl := List.singleton_inj.1 hc
        exact hlast
      · rw [← List.cons_append, ← List.append_assoc] at h
        exact hkeep between c rest (List.append_inj' h rfl).1

end Since

/-! ## What a run puts out -/

section Outputs

variable {γ : Type} {out inp : S → A → List γ} {store : S → List γ} {I : S → Prop} {acts more : List A}

/-- What the steps of a run put out, one after another. -/
def outputs (step : S → A → Option S) (out : S → A → List γ) : S → List A → List γ
  | _, [] => []
  | s, a :: acts => out s a ++ (step s a).elim [] fun s' => outputs step out s' acts

theorem outputs_cons {a : A} (h : step s a = some s') :
    outputs step out s (a :: acts) = out s a ++ outputs step out s' acts := by
  rw [outputs, h, Option.elim_some]

theorem outputs_append (h : replay step s acts = some s') :
    outputs step out s (acts ++ more) = outputs step out s acts ++ outputs step out s' more := by
  induction acts generalizing s with
  | nil =>
    cases h
    rfl
  | cons a acts ih =>
    rw [replay_cons, Option.bind_eq_some_iff] at h
    obtain ⟨s1, h1, h2⟩ := h
    rw [List.cons_append, outputs_cons h1, outputs_cons h1, ih h2, List.append_assoc]

/-- A store that the steps put into and take from, in order: what a run takes out and what it leaves there
is what was there and what it put in. -/
theorem outputs_conserve
    (hstep : ∀ s a s', I s → step s a = some s' → I s' ∧ out s a ++ store s' = store s ++ inp s a)
    (hI : I s) (h : replay step s acts = some s') :
    outputs step out s acts ++ store s' = store s ++ outputs step inp s acts := by
  induction acts generalizing s with
  | nil =>
    cases h
    exact (List.append_nil _).symm
  | cons a acts ih =>
    rw [replay_cons, Option.bind_eq_some_iff] at h
    obtain ⟨s1, h1, h2⟩ := h
    obtain ⟨hI1, hstore⟩ := hstep s a s1 hI h1
    rw [outputs_cons h1, outputs_cons h1, List.append_assoc, ih hI1 h2, ← List.append_assoc, hstore,
      List.append_assoc]

/-- A run in which no step puts anything out. -/
theorem outputs_eq_nil (hstep : ∀ s a s', I s → step s a = some s' → I s' ∧ out s a = [])
    (hI : I s) (h : replay step s acts = some s') : outputs step out s acts = [] := by
  induction acts generalizing s with
  | nil => rfl
  | cons a acts ih =>
    rw [replay_cons, Option.bind_eq_some_iff] at h
    obtain ⟨s1, h1, h2⟩ := h
    obtain ⟨hI1, hnone⟩ := hstep s a s1 hI h1
    rw [outputs_cons h1, hnone, ih hI1 h2, List.append_nil]

end Outputs

/-- When every step lowers a measure, some run cannot be continued. -/
theorem exists_stuck {I : S → Prop} (μ : S → Nat) (hs : I s)
    (hstep : ∀ s a s', I s → step s a = some s' → I s' ∧ μ s' < μ s) :
    ∃ s', Reachable step s s' ∧ I s' ∧ Stuck step s' := by
  induction hn : μ s using Nat.strongRecOn generalizing s with
  | ind n ih =>
    subst hn
    by_cases hstuck : Stuck step s
    · exact ⟨s, .refl s, hs, hstuck⟩
    · obtain ⟨a, ha⟩ := not_forall.1 hstuck
      obtain ⟨s1, h1⟩ := Option.ne_none_iff_exists'.1 ha
      obtain ⟨hI, hlt⟩ := hstep s a s1 hs h1
      obtain ⟨s2, h2, hI2, hstuck2⟩ := ih (μ s1) hlt hI rfl
      exact ⟨s2, (Reachable.of_step h1).trans h2, hI2, hstuck2⟩

end Foundations
