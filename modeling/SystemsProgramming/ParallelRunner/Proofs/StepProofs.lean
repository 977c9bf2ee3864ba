import SystemsProgramming.ParallelRunner.Runner
import Mathlib.Data.Fintype.EquivFin
import Mathlib.Data.List.Nodup
import Mathlib.Data.List.Perm.Subperm
import Mathlib.Algebra.Order.BigOperators.Group.List
import Mathlib.Algebra.Order.Ring.Nat

/-!
# Proofs: what a step can do, and the invariant

The invariant says which children exist and which have been waited for, by where `main` is: in the
fork loop the first `i`, and none waited for; in the collect loop all of them, and waited for are those
whose tags have been printed, with the one that is being read.
-/

namespace SystemsProgramming.ParallelRunner

open Foundations

variable {cfg : Setup} {s s' : State} {a : Action}

/-- The number of commands that `main` launches. -/
def launched (cfg : Setup) : Nat := min cfg.commands MAX

/-- The tags printed, in their order. -/
def State.tags (s : State) : List Nat := s.printed.map Prod.fst

@[simp] theorem setChild_parent (s : State) (c : Nat) (child : Child) :
    (s.setChild c child).parent = s.parent := rfl

@[simp] theorem setChild_pids (s : State) (c : Nat) (child : Child) :
    (s.setChild c child).pids = s.pids := rfl

@[simp] theorem setChild_printed (s : State) (c : Nat) (child : Child) :
    (s.setChild c child).printed = s.printed := rfl

theorem setChild_children (s : State) (c d : Nat) (child : Child) :
    (s.setChild c child).children d = if d = c then child else s.children d := by
  simp only [State.setChild, Function.update_apply]

theorem setChild_children_self (s : State) (c : Nat) (child : Child) :
    (s.setChild c child).children c = child := by
  rw [setChild_children, if_pos rfl]

theorem setChild_children_of_ne (s : State) {c d : Nat} (child : Child) (h : d ≠ c) :
    (s.setChild c child).children d = s.children d := by
  rw [setChild_children, if_neg h]

/-- What a change of a child does not change. -/
theorem setChild_field {β : Type} {f : Child → β} {c : Nat} {child : Child}
    (h : f child = f (s.children c)) (d : Nat) : f ((s.setChild c child).children d) = f (s.children d) := by
  rw [setChild_children]
  split
  · rename_i hd
    rw [h, hd]
  · rfl

theorem wrote_pid (child : Child) (w : List UInt8) (ws : List (List UInt8)) (len : Nat) :
    (child.wrote w ws len).pid = child.pid := by
  unfold Child.wrote
  split <;> rfl

theorem wrote_status (child : Child) (w : List UInt8) (ws : List (List UInt8)) (len : Nat) :
    (child.wrote w ws len).status = child.status := by
  unfold Child.wrote
  split <;> rfl

/-! ## Inversion -/

/-- The steps, each with its guard and its effect. -/
inductive Moves (cfg : Setup) (s : State) : Action → State → Prop where
  | fork {i : Nat} {pid : Int} (hparent : s.parent = .forking i) (hpos : 0 < pid)
    (hfresh : ∀ c < MAX, (s.children c).status.InUse → (s.children c).pid ≠ pid) :
    Moves cfg s (.fork pid)
      { s.setChild i { s.children i with pid := pid, status := .running } with
        parent := forkLoop cfg (i + 1)
        pids := Function.update s.pids i pid }
  | write {c len : Nat} {w : List UInt8} {ws : List (List UInt8)}
    (hstatus : (s.children c).status = .running) (htodo : (s.children c).todo = w :: ws)
    (hcan : (s.children c).CanWrite cfg w len) :
    Moves cfg s (.write c len) (s.setChild c ((s.children c).wrote w ws len))
  | exit {c : Nat} (hstatus : (s.children c).status = .running)
    (htodo : (s.children c).todo = []) :
    Moves cfg s (.exit c) (s.setChild c { s.children c with status := .exited })
  | wait {c k : Nat} (hparent : s.parent = .waiting k)
    (hstatus : (s.children c).status = .exited) :
    Moves cfg s (.wait c)
      { s.setChild c { s.children c with status := .reaped } with
        parent := collect cfg k s.pids (s.children c).pid }
  | waitFails {k : Nat} (hparent : s.parent = .waiting k)
    (hnone : ∀ c < MAX, ¬ (s.children c).status.InUse) :
    Moves cfg s .waitFails { s with parent := collect cfg k s.pids (-1) }
  | read {k i : Nat} (hparent : s.parent = .reading k i) :
    Moves cfg s .read
      { s.setChild i { s.children i with pipe := (s.children i).pipe.drop BUFFER } with
        parent := collectLoop cfg (k + 1)
        printed := s.printed ++ [(i, (s.children i).pipe.take BUFFER)] }

theorem step_iff : step cfg s a = some s' ↔ Moves cfg s a s' := by
  constructor
  · intro h
    cases a with
    | fork pid =>
      simp only [step] at h
      split at h
      · rename_i i hparent
        split at h
        · rename_i hpid
          cases h
          exact .fork hparent hpid.1 hpid.2
        · cases h
      · cases h
    | write c len =>
      simp only [step] at h
      split at h
      · rename_i w ws hstatus htodo
        split at h
        · cases h
          exact .write hstatus htodo ‹_›
        · cases h
      · cases h
    | exit c =>
      simp only [step] at h
      split at h
      · rename_i hexit
        cases h
        exact .exit hexit.1 hexit.2
      · cases h
    | wait c =>
      simp only [step] at h
      split at h
      · rename_i k hparent
        split at h
        · cases h
          exact .wait hparent ‹_›
        · cases h
      · cases h
    | waitFails =>
      simp only [step] at h
      split at h
      · rename_i k hparent
        split at h
        · cases h
          exact .waitFails hparent ‹_›
        · cases h
      · cases h
    | read =>
      simp only [step] at h
      split at h
      · rename_i k i hparent
        cases h
        exact .read hparent
      · cases h
  · intro h
    cases h with
    | fork hparent hpos hfresh => simp only [step, hparent, if_pos (And.intro hpos hfresh)]
    | write hstatus htodo hcan => simp only [step, hstatus, htodo, if_pos hcan]
    | exit hstatus htodo => simp only [step, if_pos (And.intro hstatus htodo)]
    | wait hparent hstatus => simp only [step, hparent, if_pos hstatus]
    | waitFails hparent hnone => simp only [step, hparent, if_pos hnone]
    | read hparent => simp only [step, hparent]

/-! ## The search in `pids` -/

/-- A process id is found at the first place that has it. -/
theorem search_eq_some {pids : Nat → Int} {done : Int} {rounds j c : Nat} (hc : pids c = done)
    (hj : j ≤ c) (hmax : c < MAX) (hrounds : c < j + rounds)
    (hfirst : ∀ d, j ≤ d → d < c → pids d ≠ done) : search pids done rounds j = some (c : Int) := by
  induction rounds generalizing j with
  | zero => omega
  | succ rounds ih =>
    rw [search, if_pos (show j < MAX by omega)]
    by_cases hjc : j = c
    · rw [if_pos (hjc ▸ hc), hjc]
    · rw [if_neg (hfirst j (Nat.le_refl j) (by omega))]
      exact ih (by omega) (by omega) fun d hd => hfirst d (by omega)

/-- Looking for an id that is not there, past the end of the array. -/
theorem search_eq_none {pids : Nat → Int} {done : Int} {rounds j : Nat} (hj : j ≤ MAX)
    (hrounds : MAX < j + rounds) (hnone : ∀ d, j ≤ d → d < MAX → pids d ≠ done) :
    search pids done rounds j = none := by
  induction rounds generalizing j with
  | zero => omega
  | succ rounds ih =>
    unfold search
    by_cases hlt : j < MAX
    · rw [if_pos hlt, if_neg (hnone j (Nat.le_refl j) hlt)]
      exact ih (by omega) (by omega) fun d hd => hnone d (by omega)
    · exact if_neg hlt

/-! ## The invariant -/

/-- How many children there are when `main` is there. -/
def Parent.born (cfg : Setup) : Parent → Nat
  | .forking i => i
  | _ => launched cfg

/-- The children that have been waited for: those whose tags are printed, and the one being read. -/
def State.collected (s : State) : List Nat :=
  s.tags ++ match s.parent with
    | .reading _ i => [i]
    | _ => []

/-- In every round of the collect loop, as many tags have been printed as there were rounds. -/
def Rounds (cfg : Setup) (s : State) : Prop :=
  match s.parent with
  | .forking i => i < launched cfg ∧ s.printed = []
  | .waiting k => k < cfg.commands ∧ s.printed.length = k
  | .reading k _ => k < cfg.commands ∧ s.printed.length = k
  | .returned => s.printed.length = cfg.commands
  | .outside => MAX < cfg.commands ∧ launched cfg ≤ s.printed.length

/-- The invariant of `main` and its children. -/
structure Inv (cfg : Setup) (s : State) : Prop where
  rounds : Rounds cfg s
  born : ∀ c, (s.children c).status ≠ .unborn ↔ c < s.parent.born cfg
  reaped : ∀ c, (s.children c).status = .reaped ↔ c ∈ s.collected
  nodup : s.collected.Nodup
  pids_eq : ∀ c, c < s.parent.born cfg → s.pids c = (s.children c).pid
  pids_pos : ∀ c, c < s.parent.born cfg → 0 < (s.children c).pid
  distinct : ∀ c d, c < s.parent.born cfg → d < s.parent.born cfg →
    (s.children c).pid = (s.children d).pid → c = d

theorem Inv.of_waiting {k : Nat} (h : Inv cfg s) (hparent : s.parent = .waiting k) :
    k < cfg.commands ∧ s.printed.length = k ∧ s.parent.born cfg = launched cfg ∧
      s.collected = s.tags := by
  have hrounds := h.rounds
  simp only [Rounds, hparent] at hrounds
  refine ⟨hrounds.1, hrounds.2, by rw [hparent]; rfl, ?_⟩
  simp [State.collected, hparent]

/-- Only the commands that `main` launches have children. -/
theorem Inv.lt_launched (h : Inv cfg s) {c : Nat} (hc : (s.children c).status ≠ .unborn) :
    c < launched cfg := by
  have hlt := (h.born c).1 hc
  have hrounds := h.rounds
  unfold Rounds at hrounds
  cases hparent : s.parent with
  | forking i =>
    rw [hparent] at hlt hrounds
    exact lt_trans hlt hrounds.1
  | waiting | reading | returned | outside =>
    rw [hparent] at hlt
    exact hlt

/-- A child that has not been waited for has no tag printed. -/
theorem Inv.not_mem_tags (h : Inv cfg s) {c : Nat} (hstatus : (s.children c).status ≠ .reaped) :
    c ∉ s.tags := by
  intro hmem
  exact hstatus ((h.reaped c).2 (List.mem_append_left _ hmem))

/-- When all children have been waited for, as many tags are printed as there were children. -/
theorem Inv.launched_le (h : Inv cfg s) (hborn : s.parent.born cfg = launched cfg)
    (hall : ∀ c < MAX, ¬ (s.children c).status.InUse) : launched cfg ≤ s.collected.length := by
  have hsub : List.range (launched cfg) ⊆ s.collected := by
    intro c hc
    have hlt : c < launched cfg := List.mem_range.1 hc
    have hne := (h.born c).2 (hborn ▸ hlt)
    have huse := hall c (lt_of_lt_of_le hlt (Nat.min_le_right _ _))
    rw [← h.reaped]
    unfold Status.InUse at huse
    cases hs : (s.children c).status <;> simp_all
  have hlen := List.Nodup.length_le_of_subset List.nodup_range hsub
  rwa [List.length_range] at hlen

/-- At its end, and when it has run over `pids`, `main` has waited for every child. -/
theorem Inv.reaped_at_end (h : Inv cfg s) (hend : s.parent = .returned ∨ s.parent = .outside) {c : Nat}
    (hc : c < launched cfg) : c ∈ s.tags := by
  have hrounds := h.rounds
  have hcollected : s.collected = s.tags := by
    unfold State.collected
    rcases hend with hend | hend <;> rw [hend] <;> exact List.append_nil _
  have hlen : launched cfg ≤ s.tags.length := by
    have htags : s.tags.length = s.printed.length := List.length_map ..
    rw [htags]
    unfold Rounds at hrounds
    rcases hend with hend | hend <;> rw [hend] at hrounds
    · exact le_trans (Nat.min_le_left _ _) hrounds.ge
    · exact hrounds.2
  have hsub : s.tags ⊆ List.range (launched cfg) := by
    intro d hd
    rw [← hcollected, ← h.reaped] at hd
    exact List.mem_range.2 (h.lt_launched (by rw [hd]; decide))
  have hnodup : s.tags.Nodup := hcollected ▸ h.nodup
  have hperm : s.tags.Perm (List.range (launched cfg)) := by
    refine List.Subperm.perm_of_length_le (hnodup.subperm hsub) ?_
    rwa [List.length_range]
  exact hperm.mem_iff.2 (List.mem_range.2 hc)

theorem born_forkLoop {i : Nat} (h : i < launched cfg) :
    (forkLoop cfg (i + 1)).born cfg = i + 1 := by
  unfold launched at h
  unfold forkLoop
  split
  · rfl
  · rename_i hend
    show launched cfg = i + 1
    unfold launched
    omega

theorem collected_forkLoop {i : Nat} (s : State) (hparent : s.parent = forkLoop cfg i) :
    s.collected = s.tags := by
  unfold State.collected forkLoop at *
  split at hparent <;> simp [hparent]

/-- The fork loop after a round. -/
theorem rounds_forkLoop {s1 : State} {i : Nat} (hparent : s1.parent = forkLoop cfg (i + 1))
    (hi : i < launched cfg) (hprinted : s1.printed = []) : Rounds cfg s1 := by
  unfold launched at hi
  unfold Rounds
  rw [hparent, forkLoop]
  by_cases hcond : i + 1 < cfg.commands ∧ i + 1 < MAX
  · rw [if_pos hcond]
    exact ⟨lt_min hcond.1 hcond.2, hprinted⟩
  · rw [if_neg hcond, hprinted]
    exact ⟨by omega, rfl⟩

/-- The collect loop after a round. -/
theorem rounds_collectLoop {s1 : State} {k : Nat} (hparent : s1.parent = collectLoop cfg (k + 1))
    (hk : k < cfg.commands) (hlen : s1.printed.length = k + 1) : Rounds cfg s1 := by
  unfold Rounds
  rw [hparent, collectLoop]
  by_cases hlast : k + 1 < cfg.commands
  · rw [if_pos hlast]
    exact ⟨hlast, hlen⟩
  · rw [if_neg hlast]
    show s1.printed.length = cfg.commands
    omega

/-- `waitpid` returns a child that has exited, and the search finds it. -/
theorem Inv.collect_pid {k c : Nat} (h : Inv cfg s) (hparent : s.parent = .waiting k)
    (hstatus : (s.children c).status = .exited) :
    c < launched cfg ∧ collect cfg k s.pids (s.children c).pid = .reading k c := by
  obtain ⟨hk, hlen, hborn, -⟩ := h.of_waiting hparent
  have hlt : c < s.parent.born cfg := (h.born c).1 (by rw [hstatus]; decide)
  have hc : c < launched cfg := hborn ▸ hlt
  have hmin : c < cfg.commands ∧ c < MAX := by
    unfold launched at hc
    omega
  have hsearch : search s.pids (s.children c).pid cfg.commands 0 = some (c : Int) := by
    refine search_eq_some (h.pids_eq c hlt) (Nat.zero_le c) hmin.2 (by omega) fun d _ hd heq => ?_
    have hdlt : d < s.parent.born cfg := by omega
    rw [h.pids_eq d hdlt] at heq
    exact absurd (h.distinct d c hdlt hlt heq) (by omega)
  refine ⟨hc, ?_⟩
  unfold collect
  rw [hsearch]

/-- `waitpid` fails only when there are more rounds than children, and then the search runs over the
end of `pids`. -/
theorem Inv.collect_fails {k : Nat} (h : Inv cfg s) (hparent : s.parent = .waiting k)
    (hall : ∀ c < MAX, ¬ (s.children c).status.InUse) :
    (MAX < cfg.commands ∧ launched cfg ≤ s.printed.length) ∧
      collect cfg k s.pids (-1) = .outside := by
  obtain ⟨hk, hlen, hborn, hcollected⟩ := h.of_waiting hparent
  have hle := h.launched_le hborn hall
  have htags : s.tags.length = s.printed.length := List.length_map ..
  rw [hcollected, htags] at hle
  have hmax : MAX < cfg.commands ∧ launched cfg = MAX := by
    unfold launched at hle ⊢
    omega
  have hsearch : search s.pids (-1) cfg.commands 0 = none := by
    refine search_eq_none (Nat.zero_le _) (by omega) fun d _ hd heq => ?_
    have hdlt : d < s.parent.born cfg := by omega
    have hpos := h.pids_pos d hdlt
    rw [← h.pids_eq d hdlt, heq] at hpos
    omega
  refine ⟨⟨hmax.1, hle⟩, ?_⟩
  unfold collect
  rw [hsearch]

/-- A step that launches nothing: what it has to say about the children it has waited for. -/
theorem Inv.change {s1 : State} (h : Inv cfg s) (hrounds : Rounds cfg s1)
    (hborn : s1.parent.born cfg = s.parent.born cfg) (hpids : s1.pids = s.pids)
    (hpid : ∀ c, (s1.children c).pid = (s.children c).pid)
    (hunborn : ∀ c, (s1.children c).status = .unborn ↔ (s.children c).status = .unborn)
    (hreaped : ∀ c, (s1.children c).status = .reaped ↔ c ∈ s1.collected)
    (hnodup : s1.collected.Nodup) : Inv cfg s1 where
  rounds := hrounds
  born c := by rw [hborn, ← h.born c, ne_eq, hunborn c]
  reaped := hreaped
  nodup := hnodup
  pids_eq c hc := by
    rw [hpids, hpid]
    exact h.pids_eq c (hborn ▸ hc)
  pids_pos c hc := by
    rw [hpid]
    exact h.pids_pos c (hborn ▸ hc)
  distinct c d hc hd heq := by
    rw [hpid, hpid] at heq
    exact h.distinct c d (hborn ▸ hc) (hborn ▸ hd) heq

/-- A step of a child that does not change whether it exists. -/
theorem Inv.setChild (h : Inv cfg s) {c : Nat} {child : Child}
    (hpid : child.pid = (s.children c).pid)
    (hunborn : child.status = .unborn ↔ (s.children c).status = .unborn)
    (hreaped : child.status = .reaped ↔ (s.children c).status = .reaped) :
    Inv cfg (s.setChild c child) := by
  refine h.change h.rounds rfl rfl (setChild_field hpid) (fun d => ?_) (fun d => ?_) h.nodup
  · exact iff_of_eq (setChild_field (f := fun x => x.status = .unborn) (propext hunborn) d)
  · show _ ↔ d ∈ s.collected
    rw [← h.reaped d]
    exact iff_of_eq (setChild_field (f := fun x => x.status = .reaped) (propext hreaped) d)

/-- In the fork loop the first `i` children exist, and none has been waited for. -/
theorem Inv.of_forking {i : Nat} (h : Inv cfg s) (hparent : s.parent = .forking i) :
    (i < launched cfg ∧ s.printed = []) ∧ s.collected = [] ∧
      ∀ c, (s.children c).status ≠ .unborn ↔ c < i := by
  have hrounds := h.rounds
  simp only [Rounds, hparent] at hrounds
  refine ⟨hrounds, by simp [State.collected, State.tags, hparent, hrounds.2], fun c => ?_⟩
  rw [h.born c, hparent]
  rfl

/-- So the ids of all of them are in use. -/
theorem Inv.inUse_of_forking {i c : Nat} (h : Inv cfg s) (hparent : s.parent = .forking i) (hc : c < i) :
    (s.children c).status.InUse := by
  obtain ⟨-, hcollected, hborn⟩ := h.of_forking hparent
  have hne := (hborn c).2 hc
  have hreaped := h.reaped c
  rw [hcollected] at hreaped
  unfold Status.InUse
  cases hs : (s.children c).status <;> simp_all

/-- A round of the fork loop: the child `i` gets an id that no other has. -/
theorem Inv.fork {i : Nat} {pid : Int} (h : Inv cfg s) (hparent : s.parent = .forking i) (hpos : 0 < pid)
    (hfresh : ∀ c < MAX, (s.children c).status.InUse → (s.children c).pid ≠ pid) :
    Inv cfg { s.setChild i { s.children i with pid := pid, status := .running } with
      parent := forkLoop cfg (i + 1)
      pids := Function.update s.pids i pid } := by
  obtain ⟨⟨hi, hprinted⟩, hcollected, hborn⟩ := h.of_forking hparent
  have hold : ∀ c, c < i → c < s.parent.born cfg := by
    intro c hc
    rw [hparent]
    exact hc
  have hother : ∀ c, c < i → (s.children c).pid ≠ pid := by
    intro c hc
    have hmax : i < MAX := lt_of_lt_of_le hi (Nat.min_le_right _ _)
    exact hfresh c (by omega) (h.inUse_of_forking hparent hc)
  generalize hnew : ({ s.setChild i _ with parent := _, pids := _ } : State) = s1
  have hparent1 : s1.parent = forkLoop cfg (i + 1) := by rw [← hnew]
  have hborn1 : s1.parent.born cfg = i + 1 := by rw [hparent1, born_forkLoop hi]
  have hchild : ∀ c, s1.children c =
      if c = i then { s.children i with pid := pid, status := .running } else s.children c := by
    intro c
    rw [← hnew]
    exact setChild_children s i c _
  have hpids1 : ∀ c, s1.pids c = if c = i then pid else s.pids c := by
    intro c
    rw [← hnew]
    exact Function.update_apply ..
  have hprinted1 : s1.printed = [] := by
    rw [← hnew]
    exact hprinted
  have hcollected1 : s1.collected = [] := by
    rw [collected_forkLoop s1 hparent1, State.tags, hprinted1, List.map_nil]
  refine ⟨rounds_forkLoop hparent1 hi hprinted1, fun c => ?_, fun c => ?_, by simp [hcollected1],
    fun c hc => ?_, fun c hc => ?_, fun c d hc hd heq => ?_⟩
  · rw [hborn1, hchild]
    split
    · rename_i hc
      simp [hc]
    · rw [hborn]
      omega
  · rw [hcollected1, hchild]
    split
    · simp
    · rw [h.reaped, hcollected]
  · rw [hpids1, hchild]
    split
    · rfl
    · exact h.pids_eq c (hold c (by omega))
  · rw [hchild]
    split
    · exact hpos
    · exact h.pids_pos c (hold c (by omega))
  · rw [hchild, hchild] at heq
    rw [hborn1] at hc hd
    by_cases hci : c = i <;> by_cases hdi : d = i
    · rw [hci, hdi]
    · rw [if_pos hci, if_neg hdi] at heq
      exact absurd heq.symm (hother d (by omega))
    · rw [if_neg hci, if_pos hdi] at heq
      exact absurd heq (hother c (by omega))
    · rw [if_neg hci, if_neg hdi] at heq
      exact h.distinct c d (hold c (by omega)) (hold d (by omega)) heq

/-- `waitpid` returns the child `c`. -/
theorem Inv.wait {c k : Nat} (h : Inv cfg s) (hparent : s.parent = .waiting k)
    (hstatus : (s.children c).status = .exited) :
    Inv cfg { s.setChild c { s.children c with status := .reaped } with
      parent := collect cfg k s.pids (s.children c).pid } := by
  obtain ⟨hk, hlen, hborn, hcollected⟩ := h.of_waiting hparent
  obtain ⟨hc, hcollect⟩ := h.collect_pid hparent hstatus
  rw [hcollect]
  have hnot : c ∉ s.tags := by
    rw [← hcollected, ← h.reaped, hstatus]
    decide
  refine h.change ⟨hk, hlen⟩ hborn.symm rfl (setChild_field rfl) (fun d => ?_) (fun d => ?_) ?_
  · refine iff_of_eq (setChild_field (f := fun x => x.status = .unborn) ?_ d)
    simp [hstatus]
  · show ((s.setChild c _).children d).status = _ ↔ d ∈ s.tags ++ [c]
    rw [setChild_children, List.mem_append, List.mem_singleton]
    split
    · rename_i hd
      simp [hd]
    · rename_i hd
      rw [h.reaped, hcollected]
      simp [hd]
  · show (s.tags ++ [c]).Nodup
    exact List.nodup_append_comm.1 (List.nodup_cons.2 ⟨hnot, hcollected ▸ h.nodup⟩)

/-- `waitpid` fails. -/
theorem Inv.waitFails {k : Nat} (h : Inv cfg s) (hparent : s.parent = .waiting k)
    (hnone : ∀ c < MAX, ¬ (s.children c).status.InUse) :
    Inv cfg { s with parent := collect cfg k s.pids (-1) } := by
  obtain ⟨hk, hlen, hborn, hcollected⟩ := h.of_waiting hparent
  obtain ⟨hmax, hcollect⟩ := h.collect_fails hparent hnone
  rw [hcollect]
  have hsame : ({ s with parent := .outside } : State).collected = s.collected := by
    rw [hcollected]
    exact List.append_nil _
  refine h.change hmax hborn.symm rfl (fun _ => rfl) (fun _ => Iff.rfl) (fun c => ?_) ?_
  · rw [hsame]
    exact h.reaped c
  · rw [hsame]
    exact h.nodup

/-- `main` prints what it reads from the pipe `i`. -/
theorem Inv.read {k i : Nat} (h : Inv cfg s) (hparent : s.parent = .reading k i) :
    Inv cfg { s.setChild i { s.children i with pipe := (s.children i).pipe.drop BUFFER } with
      parent := collectLoop cfg (k + 1)
      printed := s.printed ++ [(i, (s.children i).pipe.take BUFFER)] } := by
  have hrounds := h.rounds
  simp only [Rounds, hparent] at hrounds
  obtain ⟨hk, hlen⟩ := hrounds
  have hborn : s.parent.born cfg = launched cfg := by rw [hparent]; rfl
  have hcollected : s.collected = s.tags ++ [i] := by rw [State.collected, hparent]
  generalize hnew : ({ s.setChild i _ with parent := _, printed := _ } : State) = s1
  have hparent1 : s1.parent = collectLoop cfg (k + 1) := by rw [← hnew]
  have htags1 : s1.tags = s.tags ++ [i] := by
    rw [← hnew]
    exact List.map_append ..
  have hlen1 : s1.printed.length = k + 1 := by
    rw [← hnew]
    simp [hlen]
  have hsame : s1.collected = s.collected := by
    rw [hcollected, ← htags1, State.collected, hparent1]
    unfold collectLoop
    by_cases hlast : k + 1 < cfg.commands
    · rw [if_pos hlast]
      exact List.append_nil _
    · rw [if_neg hlast]
      exact List.append_nil _
  have hstatus : ∀ c, (s1.children c).status = (s.children c).status := by
    rw [← hnew]
    exact setChild_field rfl
  have hpid : ∀ c, (s1.children c).pid = (s.children c).pid := by
    rw [← hnew]
    exact setChild_field rfl
  refine h.change (rounds_collectLoop hparent1 hk hlen1) ?_ (by rw [← hnew]; rfl) hpid
    (fun c => by rw [hstatus]) (fun c => ?_) ?_
  · rw [hparent1, hborn]
    unfold collectLoop
    split <;> rfl
  · rw [hstatus, hsame]
    exact h.reaped c
  · rw [hsame]
    exact h.nodup

/-- Every step keeps the invariant. -/
theorem Inv.step (h : Inv cfg s) (hstep : step cfg s a = some s') : Inv cfg s' := by
  cases step_iff.1 hstep with
  | fork hparent hpos hfresh => exact h.fork hparent hpos hfresh
  | write hstatus htodo hcan =>
    exact h.setChild (wrote_pid ..) (by rw [wrote_status]) (by rw [wrote_status])
  | exit hstatus htodo => exact h.setChild rfl (by simp [hstatus]) (by simp [hstatus])
  | wait hparent hstatus => exact h.wait hparent hstatus
  | waitFails hparent hnone => exact h.waitFails hparent hnone
  | read hparent => exact h.read hparent

/-- The invariant holds before the first step. -/
theorem inv_initial (cfg : Setup) : Inv cfg (initial cfg) := by
  have hstart : Rounds cfg (initial cfg) ∧ (initial cfg).parent.born cfg = 0 ∧
      (initial cfg).collected = [] := by
    unfold Rounds State.collected
    by_cases hzero : cfg.commands = 0
    · have hparent : (initial cfg).parent = .returned := if_pos hzero
      rw [hparent]
      exact ⟨hzero.symm, by simp [Parent.born, launched, hzero], rfl⟩
    · have hcond : 0 < cfg.commands ∧ 0 < MAX := ⟨Nat.pos_of_ne_zero hzero, by decide⟩
      have hparent : (initial cfg).parent = .forking 0 := (if_neg hzero).trans (if_pos hcond)
      rw [hparent]
      exact ⟨⟨lt_min hcond.1 hcond.2, rfl⟩, rfl, rfl⟩
  obtain ⟨hrounds, hborn, hcollected⟩ := hstart
  refine ⟨hrounds, fun c => ?_, fun c => ?_, by simp [hcollected], fun c hc => ?_, fun c hc => ?_,
    fun c d hc => ?_⟩
  · rw [hborn]
    simp [initial]
  · rw [hcollected]
    simp [initial]
  all_goals
    rw [hborn] at hc
    exact absurd hc (Nat.not_lt_zero c)

/-- The invariant holds in every state that is reached. -/
theorem Reached.inv (h : Reached cfg s) : Inv cfg s :=
  h.invariant (inv_initial cfg) fun _ _ _ hI hstep => hI.step hstep

/-! ## Progress -/

/-- What a child has still to do. -/
def Child.work (child : Child) : Nat :=
  child.todo.flatten.length + child.todo.length +
    match child.status with
    | .unborn => 1
    | .running => 1
    | _ => 0

/-- What `main` has still to do. -/
def Parent.work (cfg : Setup) : Parent → Nat
  | .forking i => 2 * cfg.commands + 1 + (launched cfg - i)
  | .waiting k => 2 * (cfg.commands - k)
  | .reading k _ => 2 * (cfg.commands - k) - 1
  | .returned => 0
  | .outside => 0

/-- What all of them have still to do. -/
def State.work (cfg : Setup) (s : State) : Nat :=
  s.parent.work cfg + ((List.range (launched cfg)).map fun c => (s.children c).work).sum

theorem Child.work_wrote {child : Child} {w : List UInt8} {ws : List (List UInt8)} {len : Nat}
    (htodo : child.todo = w :: ws) (hcan : child.CanWrite cfg w len) :
    (child.wrote w ws len).work < child.work := by
  obtain ⟨hlen, -, hpos, -⟩ := hcan
  unfold Child.work
  rw [wrote_status, htodo]
  unfold Child.wrote
  by_cases hall : len = w.length
  · rw [if_pos hall]
    simp only [List.flatten_cons, List.length_append, List.length_cons]
    omega
  · have hne : w ≠ [] := by
      rintro rfl
      exact hall (Nat.le_zero.1 hlen)
    rw [if_neg hall]
    have hlt := hpos hne
    simp only [List.flatten_cons, List.length_append, List.length_cons, List.length_drop]
    omega

theorem sum_map_range_le {n c : Nat} {f g : Nat → Nat} (hc : g c ≤ f c) (h : ∀ d, d ≠ c → g d = f d) :
    ((List.range n).map g).sum ≤ ((List.range n).map f).sum :=
  List.sum_le_sum fun d _ => by
    by_cases hd : d = c
    · rw [hd]
      exact hc
    · rw [h d hd]

theorem sum_map_range_lt {n c : Nat} {f g : Nat → Nat} (hn : c < n) (hc : g c < f c)
    (h : ∀ d, d ≠ c → g d = f d) : ((List.range n).map g).sum < ((List.range n).map f).sum := by
  refine List.sum_lt_sum g f (fun d _ => ?_) ⟨c, List.mem_range.2 hn, hc⟩
  by_cases hd : d = c
  · rw [hd]
    exact Nat.le_of_lt hc
  · rw [h d hd]

/-- Every step leaves less to do. -/
theorem Inv.work_lt (h : Inv cfg s) (hstep : ParallelRunner.step cfg s a = some s') :
    s'.work cfg < s.work cfg := by
  have hrounds := h.rounds
  have hne : ∀ c child d, d ≠ c →
      ((s.setChild c child).children d).work = (s.children d).work := by
    intro c child d hd
    rw [setChild_children_of_ne s child hd]
  cases step_iff.1 hstep with
  | @fork i pid hparent hpos hfresh =>
    obtain ⟨⟨hi, -⟩, -, hborn⟩ := h.of_forking hparent
    have hunborn : (s.children i).status = .unborn :=
      not_not.1 fun hne => Nat.lt_irrefl i ((hborn i).1 hne)
    refine Nat.add_lt_add_of_lt_of_le ?_ (sum_map_range_le ?_ (hne i _))
    · show (forkLoop cfg (i + 1)).work cfg < s.parent.work cfg
      rw [hparent]
      unfold forkLoop launched at *
      split
      · show 2 * cfg.commands + 1 + (min cfg.commands MAX - (i + 1)) <
          2 * cfg.commands + 1 + (min cfg.commands MAX - i)
        omega
      · show 2 * (cfg.commands - 0) < 2 * cfg.commands + 1 + (min cfg.commands MAX - i)
        omega
    · simp only [setChild_children_self]
      simp [Child.work, hunborn]
  | @write c len w ws hstatus htodo hcan =>
    refine Nat.add_lt_add_left (sum_map_range_lt (h.lt_launched (by rw [hstatus]; decide)) ?_
      (hne c _)) _
    simp only [setChild_children_self]
    exact Child.work_wrote htodo hcan
  | @exit c hstatus htodo =>
    refine Nat.add_lt_add_left (sum_map_range_lt (h.lt_launched (by rw [hstatus]; decide)) ?_
      (hne c _)) _
    simp only [setChild_children_self]
    simp [Child.work, hstatus]
  | @wait c k hparent hstatus =>
    obtain ⟨hk, hlen, hborn, hcollected⟩ := h.of_waiting hparent
    obtain ⟨hc, hcollect⟩ := h.collect_pid hparent hstatus
    refine Nat.add_lt_add_of_lt_of_le ?_ (sum_map_range_le ?_ (hne c _))
    · show (collect cfg k s.pids (s.children c).pid).work cfg < s.parent.work cfg
      rw [hcollect, hparent]
      show 2 * (cfg.commands - k) - 1 < 2 * (cfg.commands - k)
      omega
    · simp only [setChild_children_self]
      simp [Child.work, hstatus]
  | @waitFails k hparent hnone =>
    obtain ⟨hmax, hcollect⟩ := h.collect_fails hparent hnone
    refine Nat.add_lt_add_right ?_ _
    show (collect cfg k s.pids (-1)).work cfg < s.parent.work cfg
    obtain ⟨hk, -⟩ := h.of_waiting hparent
    rw [hcollect, hparent]
    show 0 < 2 * (cfg.commands - k)
    omega
  | @read k i hparent =>
    simp only [Rounds, hparent] at hrounds
    refine Nat.add_lt_add_of_lt_of_le ?_ (sum_map_range_le ?_ (hne i _))
    · show (collectLoop cfg (k + 1)).work cfg < s.parent.work cfg
      rw [hparent]
      unfold collectLoop
      split
      · show 2 * (cfg.commands - (k + 1)) < 2 * (cfg.commands - k) - 1
        omega
      · show 0 < 2 * (cfg.commands - k) - 1
        omega
    · simp only [setChild_children_self]
      exact Nat.le_refl _

/-- Nobody can move only when `main` has come to its end, has run over `pids`, or is in a deadlock. -/
theorem stuck_cases (hstuck : Stuck (step cfg) s) :
    s.parent = .returned ∨ s.parent = .outside ∨ Deadlock cfg s := by
  have hno : ∀ a s', ¬ Moves cfg s a s' := by
    intro a s' hmoves
    have hsome := step_iff.2 hmoves
    rw [hstuck a] at hsome
    cases hsome
  cases hparent : s.parent with
  | forking i =>
    -- there is a process id that is not in use
    obtain ⟨m, hm⟩ := Infinite.exists_notMem_finset
      (insert 0 ((Finset.range MAX).image fun c => (s.children c).pid.toNat))
    rw [Finset.mem_insert, not_or] at hm
    refine absurd (Moves.fork hparent (show (0 : Int) < m by omega) fun c hc _ heq => hm.2 ?_)
      (hno _ _)
    exact Finset.mem_image.2 ⟨c, Finset.mem_range.2 hc, by rw [heq]; rfl⟩
  | reading k i => exact absurd (Moves.read hparent) (hno _ _)
  | returned => exact Or.inl rfl
  | outside => exact Or.inr (Or.inl rfl)
  | waiting k =>
    have hnotExited : ∀ c, (s.children c).status ≠ .exited :=
      fun c hstatus => hno _ _ (Moves.wait hparent hstatus)
    have hrunning : ∃ c < MAX, (s.children c).status.InUse := by
      by_contra hnone
      push Not at hnone
      exact hno _ _ (Moves.waitFails hparent hnone)
    refine Or.inr (Or.inr ⟨⟨k, hparent⟩, ?_, fun c huse => ?_⟩)
    · obtain ⟨c, -, huse⟩ := hrunning
      exact ⟨c, huse.resolve_right (hnotExited c)⟩
    · have hstatus := huse.resolve_right (hnotExited c)
      refine ⟨hstatus, ?_⟩
      cases htodo : (s.children c).todo with
      | nil => exact absurd (Moves.exit hstatus htodo) (hno _ _)
      | cons w ws => exact ⟨w, ws, rfl, fun len hcan => hno _ _ (Moves.write hstatus htodo hcan)⟩

end SystemsProgramming.ParallelRunner
