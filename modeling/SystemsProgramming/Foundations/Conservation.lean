import SystemsProgramming.Foundations.Prog

/-!
# What goes in and what comes out

A program that keeps a store: some of its calls put bytes into the store, others take them out, in the
order in which they came. What is taken out and what is left is then what was there and what is put in.
-/

namespace Foundations

section Flatten

variable {κ γ : Type} {out dup : κ → List γ} {cs : List κ}

theorem sublist_flatMap_append :
    (cs.flatMap out).Sublist (cs.flatMap fun c => out c ++ dup c) := by
  induction cs with
  | nil => exact List.Sublist.slnil
  | cons c cs ih =>
    rw [List.flatMap_cons, List.flatMap_cons]
    exact (List.sublist_append_left _ _).append ih

/-- What is put out twice shows up: the outputs are those without the duplicates if and only if the
duplicates are empty. -/
theorem flatMap_eq_append_iff :
    cs.flatMap out = cs.flatMap (fun c => out c ++ dup c) ↔ ∀ c ∈ cs, dup c = [] := by
  induction cs with
  | nil => simp
  | cons c cs ih =>
    rw [List.flatMap_cons, List.flatMap_cons, List.forall_mem_cons,
      Prog.append_eq_append_iff_of_sublist (List.sublist_append_left _ _) sublist_flatMap_append,
      List.self_eq_append_right, ih]

end Flatten

namespace Prog

section Conserves

variable {σ κ α β γ ι : Type}

/-- What the calls take out of the store and what stays there is what was there and what the calls put
in. -/
def Conserves (out inp : κ → List γ) (store : σ → List γ) (p : Prog σ κ α) : Prop :=
  ∀ s, (p.calls s).flatMap out ++ store (p.final s) = store s ++ (p.calls s).flatMap inp

namespace Conserves

variable {out inp : κ → List γ} {store : σ → List γ}

theorem pure (a : α) : Conserves out inp store (Pure.pure a : Prog σ κ α) := by
  intro s
  simp

theorem get : Conserves out inp store (Prog.get : Prog σ κ σ) := by
  intro s
  simp

theorem modify {f : σ → σ} (h : ∀ s, store (f s) = store s) :
    Conserves out inp store (Prog.modify f : Prog σ κ Unit) := by
  intro s
  simp [h]

theorem call {c : κ} (hout : out c = []) (hinp : inp c = []) :
    Conserves out inp store (Prog.call c : Prog σ κ Unit) := by
  intro s
  simp [hout, hinp]

theorem bind {p : Prog σ κ α} {f : α → Prog σ κ β} (hp : Conserves out inp store p)
    (hf : ∀ a, Conserves out inp store (f a)) : Conserves out inp store (p >>= f) := by
  intro s
  have h1 := hp s
  have h2 := hf (p.value s) (p.final s)
  rw [calls_bind, final_bind, List.flatMap_append, List.flatMap_append, List.append_assoc, h2,
    ← List.append_assoc, h1, List.append_assoc]

theorem ite {c : Prop} [Decidable c] {p q : Prog σ κ α} (hp : Conserves out inp store p)
    (hq : Conserves out inp store q) : Conserves out inp store (if c then p else q) := by
  split
  · exact hp
  · exact hq

theorem forEach {body : ι → Prog σ κ Unit} (h : ∀ i, Conserves out inp store (body i))
    (is : List ι) : Conserves out inp store (Prog.forEach body is) := by
  induction is with
  | nil => exact pure ()
  | cons i is ih => exact bind (h i) fun _ => ih

end Conserves

end Conserves

end Prog

end Foundations
